import Duma.Refine.Primitives

/-! # Specifications of the slack checks

A check of a slot returns exactly when every byte of its no man's land has the fill value, and
reports the slot otherwise.
-/

namespace Duma

variable {env : Env} {ok : ℕ → Prop} {s s' : State} {i x lo hi : ℕ} {sl : Slot} {fill : UInt8}
  {A : Stop → Prop}

/-- Every byte of the slot's no man's land has the fill value that a check expects. -/
def Slot.Intact (env : Env) (s : State) (sl : Slot) : Prop :=
  ∀ x, sl.Slack x → s.mem x = s.slackfillOf env sl

def SlackReport (sl : Slot) (e : Stop) : Prop :=
  e = .abort (.slackBelow sl) ∨ e = .abort (.slackAbove sl)

theorem checkRange_wp {r : Report} : Wp (checkRange env fill lo hi r)
    (fun _ t => t = s ∧ ∀ x, lo ≤ x → x < hi → s.page env x = .readWrite ∧ s.mem x = fill)
    (fun e t => t = s ∧ ∃ x, lo ≤ x ∧ x < hi ∧
      (e = .abort r ∧ s.mem x ≠ fill ∨ e = .segv x ∧ s.page env x ≠ .readWrite)) s := by
  refine Wp.bind_iff.mpr (Wp.get_iff.mpr ?_)
  have hmem : ∀ x, x ∈ List.range' lo (hi - lo) ↔ lo ≤ x ∧ x < hi := fun x => by
    rw [List.mem_range'_1]; omega
  split
  · next h =>
    refine ⟨rfl, fun x h1 h2 => ?_⟩
    have := List.find?_eq_none.mp h x ((hmem x).mpr ⟨h1, h2⟩)
    simpa using this
  · next x h =>
    have hx := (hmem x).mp (List.mem_of_find?_eq_some h)
    have hbad := List.find?_some h
    refine Wp.ite (fun hp => ⟨rfl, x, hx.1, hx.2, Or.inl ⟨rfl, ?_⟩⟩) fun hp =>
      ⟨rfl, x, hx.1, hx.2, Or.inr ⟨rfl, hp⟩⟩
    simpa [hp] using hbad

theorem checkSlack_wp (hp : sl.Placed env) (hr : sl.RegionOk env)
    (hread : ∀ x, sl.Slack x → s.page env x = .readWrite) : Wp (checkSlack env sl)
      (fun _ t => t = s ∧ sl.Intact env s)
      (fun e t => t = s ∧ SlackReport sl e ∧ ¬ sl.Intact env s) s := by
  refine Wp.bind_iff.mpr (Wp.get_iff.mpr (Wp.ite (fun h => ⟨rfl, ?_⟩) fun h => ?_))
  · intro x hx
    exact absurd (h.resolve_right hr.pos.ne') hx.1.1
  have h0 : sl.userSize ≠ 0 := fun h' => h (Or.inl h')
  have hiff := fun x => hp.slack_iff (x := x) hr h0
  have bad : ∀ x, sl.Slack x → s.mem x ≠ s.slackfillOf env sl → ¬ sl.Intact env s :=
    fun x hx hne hI => hne (hI x hx)
  refine Wp.bind_iff.mpr (Wp.mono checkRange_wp ?_ ?_)
  · rintro _ t ⟨rfl, h1⟩
    refine Wp.mono checkRange_wp ?_ ?_
    · rintro _ u ⟨rfl, h2⟩
      refine ⟨rfl, fun x hx => ?_⟩
      rcases (hiff x).mp hx with hx' | hx'
      exacts [(h1 x hx'.1 hx'.2).2, (h2 x hx'.1 hx'.2).2]
    · rintro e u ⟨rfl, x, hx1, hx2, ⟨rfl, hne⟩ | ⟨-, hne⟩⟩
      · exact ⟨rfl, Or.inr rfl, bad x ((hiff x).mpr (Or.inr ⟨hx1, hx2⟩)) hne⟩
      · exact absurd (hread x ((hiff x).mpr (Or.inr ⟨hx1, hx2⟩))) hne
  · rintro e u ⟨rfl, x, hx1, hx2, ⟨rfl, hne⟩ | ⟨-, hne⟩⟩
    · exact ⟨rfl, Or.inl rfl, bad x ((hiff x).mpr (Or.inl ⟨hx1, hx2⟩)) hne⟩
    · exact absurd (hread x ((hiff x).mpr (Or.inl ⟨hx1, hx2⟩))) hne

/-- Whatever a check finds, it leaves the state alone. -/
theorem checkSlack_same : Wp (checkSlack env sl) (fun _ t => t = s) (fun _ t => t = s) s := by
  refine Wp.bind_iff.mpr (Wp.get_iff.mpr (Wp.ite (fun _ => rfl) fun _ => ?_))
  refine Wp.bind_iff.mpr (Wp.mono checkRange_wp ?_ fun e t h => h.1)
  rintro _ t ⟨rfl, -⟩
  exact Wp.mono checkRange_wp (fun _ _ h => h.1) fun _ _ h => h.1

theorem Slot.WellFormed.not_slack (h : sl.WellFormed env) (hs : sl.state = .inUse)
    (ha : sl.allocator.type = .internal) : ¬ sl.Slack x := by
  obtain ⟨-, hu, -, hd⟩ := h.internal hs ha
  exact (h.placed hs).not_slack (h.region (hs.trans_ne (by decide))) hu hd

theorem Ready.slack_page (h : Ready env s) (hi : s.slots[i]? = some sl) (hs : sl.state = .inUse)
    (hx : sl.Slack x) : s.page env x = .readWrite := by
  by_cases ha : sl.allocator.type = .internal
  · exact absurd hx ((h.core.slot hi).not_slack hs ha)
  · exact h.live hi ⟨hs, ha⟩ hx.1

theorem Ready.checkSlack_wp (h : Ready env s) (hi : s.slots[i]? = some sl)
    (hs : sl.state = .inUse) : Wp (checkSlack env sl)
      (fun _ t => t = s ∧ sl.Intact env s)
      (fun e t => t = s ∧ SlackReport sl e ∧ ¬ sl.Intact env s) s :=
  Duma.checkSlack_wp ((h.core.slot hi).placed hs) ((h.core.slot hi).region (by rw [hs]; nofun))
    fun _ => h.slack_page hi hs

theorem checkSlacks_same (slots : List Slot) :
    Wp (checkSlacks env slots) (fun _ t => t = s) (fun _ t => t = s) s := by
  induction slots with
  | nil => exact rfl
  | cons sl rest ih =>
    refine Wp.ite (fun _ => Wp.bind_iff.mpr ?_) fun _ => ih
    exact Wp.mono checkSlack_same (fun _ t ht => ht ▸ ih) fun _ _ ht => ht

/-- A check of some slots returns exactly when those in use are intact. -/
theorem Ready.checkSlacks_wp (h : Ready env s) (slots : List Slot)
    (hsub : ∀ sl ∈ slots, ∃ i : ℕ, s.slots[i]? = some sl) : Wp (checkSlacks env slots)
      (fun _ t => t = s ∧ ∀ sl ∈ slots, sl.state = .inUse → sl.Intact env s)
      (fun e t => t = s ∧ ∃ sl ∈ slots, sl.state = .inUse ∧ SlackReport sl e ∧
        ¬ sl.Intact env s) s := by
  induction slots with
  | nil => exact ⟨rfl, fun _ h => absurd h List.not_mem_nil⟩
  | cons sl rest ih =>
    have ih := ih fun sl' h' => hsub sl' (List.mem_cons_of_mem sl h')
    obtain ⟨i, hi⟩ := hsub sl List.mem_cons_self
    have tail : (sl.state = .inUse → sl.Intact env s) → Wp (checkSlacks env rest)
        (fun _ t => t = s ∧ ∀ sl' ∈ sl :: rest, sl'.state = .inUse → sl'.Intact env s)
        (fun e t => t = s ∧ ∃ sl' ∈ sl :: rest, sl'.state = .inUse ∧ SlackReport sl' e ∧
          ¬ sl'.Intact env s) s := fun hsl => by
      refine Wp.mono ih (fun _ t ht => ⟨ht.1, fun sl' h' => ?_⟩) fun e t ht => ⟨ht.1, ?_⟩
      · rcases List.mem_cons.mp h' with rfl | h'
        exacts [hsl, ht.2 sl' h']
      · obtain ⟨sl', h', hrest⟩ := ht.2
        exact ⟨sl', List.mem_cons_of_mem sl h', hrest⟩
    refine Wp.ite (fun hc => Wp.bind_iff.mpr ?_) fun hc => ?_
    · refine Wp.mono (h.checkSlack_wp hi hc.1) ?_ ?_
      · rintro _ t ⟨rfl, hI⟩
        exact tail fun _ => hI
      · rintro e t ⟨rfl, hrep, hI⟩
        exact ⟨rfl, sl, List.mem_cons_self, hc.1, hrep, hI⟩
    · refine tail fun hs x hx => ?_
      have : sl.userSize = 0 := by_contra fun h0 => hc ⟨hs, h0⟩
      exact absurd this hx.1.1

theorem Ready.checkAllSlacks_wp (h : Ready env s) : Wp (checkAllSlacks env)
    (fun _ t => t = s ∧ ∀ (i : ℕ) (sl : Slot), s.slots[i]? = some sl → sl.state = .inUse →
      sl.Intact env s)
    (fun e t => t = s ∧ ∃ (i : ℕ) (sl : Slot), s.slots[i]? = some sl ∧ sl.state = .inUse ∧
      SlackReport sl e ∧ ¬ sl.Intact env s) s := by
  have hread : Wp (readSlots env) (fun l t => l = s.slots ∧ t = s) (fun _ _ => False) s :=
    Wp.bind_iff.mpr (Wp.get_iff.mpr (Wp.bind_iff.mpr
      (touch_wp (fun _ => ⟨rfl, rfl⟩) fun h' => h' h.open)))
  refine Wp.bind_iff.mpr (Wp.mono hread ?_ fun _ _ => False.elim)
  rintro l t ⟨rfl, rfl⟩
  refine Wp.mono (h.checkSlacks_wp _ fun sl hsl => List.mem_iff_getElem?.mp hsl)
    (fun _ t ht => ⟨ht.1, fun i sl hi => ht.2 sl (List.mem_of_getElem? hi)⟩) ?_
  rintro e u ⟨hu, sl, hsl, hrest⟩
  obtain ⟨i, hi⟩ := List.mem_iff_getElem?.mp hsl
  exact ⟨hu, i, sl, hi, hrest⟩

theorem Quiet.bases {b : Book} (h : Quiet s b) : Bases env ok s { s with book := b } :=
  .single (.quiet b h)

/-- A slot in use whose no man's land was overwritten. -/
def Overwritten (env : Env) (s : State) (sl : Slot) : Prop :=
  (∃ i : ℕ, s.slots[i]? = some sl) ∧ sl.state = .inUse ∧ ¬ sl.Intact env s

theorem Overwritten.isUser (h : Overwritten env s sl) (hc : Core env s) : sl.IsUser := by
  obtain ⟨⟨i, hi⟩, hs, hI⟩ := h
  exact ⟨hs, fun ha => hI fun x hx => absurd hx ((hc.slot hi).not_slack hs ha)⟩

/-- The periodic check is made at the next operation. -/
def State.Due (s : State) : Prop :=
  0 < s.cfg.checkFreq ∧ s.book.checkFreqCounter + 1 = s.cfg.checkFreq

/-- The periodic check finds what the check of all slots finds, when it is due. -/
theorem Ready.checkByFreq_wp (h : Ready env s) : Wp (checkByFreq env)
    (fun _ t => (∃ b, Quiet s b ∧ t = { s with book := b }) ∧ (s.Due → ∀ (i : ℕ) (sl : Slot),
      s.slots[i]? = some sl → sl.state = .inUse → sl.Intact env s))
    (fun e _ => s.Due ∧ ∃ sl, Overwritten env s sl ∧ SlackReport sl e) s := by
  refine Wp.bind_iff.mpr (Wp.get_iff.mpr (Wp.ite (fun h0 => ?_) fun h0 =>
    ⟨⟨s.book, Quiet.refl s, rfl⟩, fun hd => absurd hd.1 h0⟩))
  set t : State := { s with
    book := { s.book with checkFreqCounter := s.book.checkFreqCounter + 1 } } with ht
  refine Wp.bind_iff.mpr (modifyBook_wp.mpr (Wp.bind_iff.mpr (Wp.get_iff.mpr ?_)))
  refine Wp.ite (fun hd => Wp.bind_iff.mpr ?_) fun hd =>
    ⟨⟨t.book, ⟨rfl, rfl, rfl, rfl⟩, rfl⟩, fun hd' => absurd hd'.2 hd⟩
  have hready : Ready env t := ⟨h.core.of_book, h.open, h.live⟩
  refine Wp.mono hready.checkAllSlacks_wp ?_ ?_
  · rintro _ _ ⟨rfl, hall⟩
    exact ⟨⟨{ t.book with checkFreqCounter := 0 }, ⟨rfl, rfl, rfl, rfl⟩, rfl⟩, fun _ => hall⟩
  · rintro e _ ⟨-, i, sl, hi, hs, hrep, hI⟩
    exact ⟨⟨h0, hd⟩, sl, ⟨⟨i, hi⟩, hs, hI⟩, hrep⟩

theorem checkByFreq_ensures (hA : ∀ sl e, Overwritten env s sl → SlackReport sl e → A e) :
    Ensures env ok (checkByFreq env)
      (fun _ t => ∃ b, Quiet s b ∧ t = { s with book := b }) A s := by
  refine Ensures.get_bind (Ensures.ite (fun _ => ?_) fun _ => ⟨s.book, Quiet.refl s, rfl⟩)
  set t : State := { s with
    book := { s.book with checkFreqCounter := s.book.checkFreqCounter + 1 } } with ht
  have hq : Quiet s t.book := ⟨rfl, rfl, rfl, rfl⟩
  refine Ensures.bind (R := fun _ u => u = t) rfl (fun _ u hu => hu ▸ hq.bases.inners) ?_
  rintro _ u rfl
  refine Ensures.get_bind (Ensures.ite (fun _ => ?_) fun _ => ⟨t.book, hq, rfl⟩)
  refine Ensures.bind_same (P := fun _ => True) ?_ fun _ _ =>
    ⟨{ t.book with checkFreqCounter := 0 }, ⟨rfl, rfl, rfl, rfl⟩, rfl⟩
  refine Wp.intro (fun _ u hr => ⟨trivial, ?_⟩) fun e u hr hp => ?_
  · have : Wp (checkAllSlacks env) (fun _ u => u = t) (fun _ u => u = t) t := by
      refine Wp.bind_iff.mpr (Wp.mono (Q := fun l u => u = t) ?_ (fun l u hu => ?_) fun _ _ => id)
      · exact Wp.bind_iff.mpr (Wp.get_iff.mpr (Wp.bind_iff.mpr
          (touch_wp (fun _ => rfl) fun _ => rfl)))
      · rw [hu]
        exact checkSlacks_same l
    exact this.returns hr
  · obtain ⟨-, i, sl, hi, hs, hrep, hI⟩ := hp.ready.checkAllSlacks_wp.stops hr
    exact hA sl e ⟨⟨i, hi⟩, hs, hI⟩ hrep

end Duma

import Duma.Runs.Admitted

/-! # The slot list in runs

The construction leaves the first list, or it ends with a message. From then on the regions of the
slots partition the memory got from the operating system, and the list has the only slot that the
allocator uses itself and as many records as fit into its pages. A growth leaves the program's slots
alone, adds empty ones and deletes the old list once.
-/

namespace Duma

variable {env : Env} {ok : ℕ → Prop} {s t : State} {i n al x : ℕ} {sl new : Slot} {r : Request}
  {l : Layout} {site : Site} {settings : Settings} {w : World}

section Construction

/-- The construction ends with the first list and the pool, or with a message. -/
def Env.ConstructsCleanly (env : Env) : Prop :=
  Wp (construct env) (fun _ t => Constructed env t) (fun e _ => ∃ r, e = .abort r)
    (State.pristine env)

/-- The construction is clean unless the null block is granted and the chunk behind it is refused
once. -/
theorem constructs_cleanly_iff : env.ConstructsCleanly ↔ env.Supplied := by
  constructor
  · intro h
    have hout := @construct_outcome env
    cases hr : construct env (State.pristine env) with
    | ok u t => exact (hout.returns hr).2
    | error e t =>
      obtain ⟨r, rfl⟩ := h.stops hr
      rcases hout.stops hr with ⟨-, hs⟩ | ⟨he, -⟩
      exacts [hs, nomatch he]
  · intro hs
    refine construct_outcome.mono (fun _ _ h => h.1) fun e _ h => ?_
    rcases h with ⟨hr, -⟩ | ⟨-, hns⟩
    exacts [hr, absurd hs hns]

/-- A platform that grants the null block and nothing else. -/
def Env.scarce : Env := { Env.sample with mmap := fun k => if k = 0 then some (2 ^ 24) else none }

/-- There the construction reads slots at address 0. -/
theorem constructs_cleanly_fails : ¬ ∀ env : Env, env.ConstructsCleanly := by
  intro h
  have hr : ∃ t, construct Env.scarce (State.pristine Env.scarce) = .error (.segv 0) t := by
    have hns : ¬ Env.scarce.Supplied := fun hs =>
      hs (2 ^ 24) (by decide +kernel) (by decide +kernel)
    have hout := @construct_outcome Env.scarce
    cases hr : construct Env.scarce (State.pristine Env.scarce) with
    | ok u t => exact absurd (hout.returns hr).2 hns
    | error e t =>
      rcases hout.stops hr with ⟨-, hs⟩ | ⟨rfl, -⟩
      exacts [absurd hs hns, ⟨t, rfl⟩]
  obtain ⟨t, hr⟩ := hr
  obtain ⟨r, hr⟩ := (h Env.scarce).stops hr
  cases hr

end Construction

section Partition

/-- The regions of the slots are ranges of whole pages that do not overlap, and they make up the
memory got from `Page_Create` and not yet given to `Page_Delete`, less the null block. -/
structure SlotPartition (env : Env) (s : State) : Prop where
  aligned : ∀ ⦃i : ℕ⦄ ⦃sl : Slot⦄, s.slots[i]? = some sl → sl.state ≠ .empty →
    env.pageSize ∣ sl.internalAddress ∧ env.pageSize ∣ sl.internalAddress + sl.internalSize
  disjoint : ∀ ⦃i j : ℕ⦄ ⦃sl sl' : Slot⦄, s.slots[i]? = some sl → s.slots[j]? = some sl' →
    sl.state ≠ .empty → sl'.state ≠ .empty → i ≠ j →
    sl.internalAddress + sl.internalSize ≤ sl'.internalAddress ∨
      sl'.internalAddress + sl'.internalSize ≤ sl.internalAddress
  union : ∀ x, (∃ (i : ℕ) (sl : Slot), s.slots[i]? = some sl ∧ sl.state ≠ .empty ∧ sl.Owns x) ↔
    held s.trace x ∧ ¬ s.InNull env x

theorem Core.slotPartition (h : Core env s) : SlotPartition env s where
  aligned i sl hi hs := by
    have hr := (h.slot hi).region hs
    exact ⟨hr.dvd, Nat.dvd_add hr.dvd hr.size_dvd⟩
  disjoint i j sl sl' hi hj hs hs' hij := by
    have hr := (h.slot hi).region hs
    have hr' := (h.slot hj).region hs'
    exact h.apart hi hj hij (fun _ => And.intro) (fun _ => And.intro) hr.size_pos hr'.size_pos
  union x := (h.part.cover x).symm

theorem slots_partition (hb : settings.Proper env) (h : Run env settings w) :
    SlotPartition env w.st :=
  (Run.safe hb h).core.slotPartition

/-- In a run whose list grows and in which a slot is evicted. -/
theorem slots_partition_sample : ∃ w, Run Env.sample (Settings.sample 3 (-1)) w ∧
    Env.sample.slotsPerPage < w.st.slots.length ∧ 0 < drops w.st.trace ∧
    SlotPartition Env.sample w.st := by
  obtain ⟨w, hw, hp⟩ := exists_run (Settings.sample 3 (-1)) busyCalls
    (fun w => decide (Env.sample.slotsPerPage < w.st.slots.length ∧ 0 < drops w.st.trace))
    (by decide +kernel)
  obtain ⟨hlen, hdrops⟩ := of_decide_eq_true hp
  exact ⟨w, hw, hlen, hdrops, slots_partition (Settings.sample_proper _ _) hw⟩

end Partition

section Deletions

theorem State.withBook_trace (s : State) (b : Book) :
    ({ s with book := b } : State).trace = s.trace := rfl

def Event.deletes (x : ℕ) : Event → Bool
  | .delete a n => decide (a ≤ x ∧ x < a + n)
  | _ => false

def State.deletions (s : State) (x : ℕ) : ℕ := s.trace.countP (·.deletes x)

theorem State.deletions_congr (h : t.trace = s.trace) : t.deletions x = s.deletions x := by
  rw [deletions, deletions, h]

theorem State.deletions_created {a : ℕ} : (s.created env a n).deletions x = s.deletions x :=
  List.countP_cons_of_neg (by simp [Event.deletes])

theorem State.deletions_putSlot {v : Slot} : (s.putSlot i v).deletions x = s.deletions x := by
  unfold deletions putSlot
  cases s.slots[i]? with
  | none => rfl
  | some old =>
    simp only
    split
    · rfl
    · exact List.countP_cons_of_neg (by simp [Event.deletes])

theorem State.deletions_deleted {a : ℕ} {p : Page} : (s.deleted env a n p).deletions x =
    s.deletions x + if a ≤ x ∧ x < a + env.roundUp n then 1 else 0 := by
  unfold deletions deleted
  rw [State.log, List.countP_cons]
  simp [Event.deletes, State.setPages]

theorem Take.deletions (h : Take env n al r i l s t) : t.deletions x = s.deletions x := by
  obtain ⟨hi, -, -, -, -⟩ := h
  rename_i sl
  unfold State.deletions
  rw [State.took_trace]
  exact State.deletions_putSlot

theorem Evicts.deletions (hc : Core env s) (hi : s.slots[i]? = some sl) (hs : sl.state = .inUse)
    (hx : sl.Owns x) (h : Evicts env s t) : t.deletions x = s.deletions x := by
  induction h with
  | refl => rfl
  | @tail u v h he ih =>
    have hu := Evicts.core hc h
    have hiu : u.slots[i]? = some sl := (Evicts.inUse hc h hs).mpr hi
    have away : ∀ {k : ℕ} {old new : Slot} {a m : ℕ} {p : Page}, u.slots[k]? = some old →
        old.IsProtected → (∀ y, a ≤ y → y < a + env.roundUp m → old.Owns y) →
        ((u.deleted env a m p).putSlot k new).deletions x = u.deletions x := by
      intro k old new a m p hk ho hin
      rw [State.deletions_putSlot, State.deletions_deleted, if_neg, Nat.add_zero]
      rintro ⟨h1, h2⟩
      obtain rfl := hu.eq_of_owns hiu hk hx (hin x h1 h2)
      obtain rfl := Option.some.inj (hiu.symm.trans hk)
      rcases ho with ho | ho <;> rw [hs] at ho <;> cases ho
    rw [← ih]
    cases he with
    | quiet => rfl
    | @shrink k old p hk ho hp =>
      have hr := (hu.slot hk).region (by rw [ho]; nofun)
      have hown := (hu.slot hk).owns_of_protected (Or.inl ho)
      obtain ⟨h1, h2, h3⟩ := Slot.keptSize_spec hr hown
      obtain ⟨hw1, hw2⟩ := Slot.kept_word hr hown
      refine away hk (Or.inl ho) fun y hy1 hy2 => ?_
      rw [hw2, Env.roundUp_of_dvd (Nat.dvd_sub hr.size_dvd h1)] at hy2
      rw [hw1] at hy1 hy2
      exact ⟨by omega, by omega⟩
    | @drop k old p hk ho hp =>
      have hr := (hu.slot hk).region (by rw [ho]; nofun)
      refine away hk (Or.inr ho) fun y hy1 hy2 => ?_
      rw [Env.roundUp_of_dvd hr.size_dvd] at hy2
      exact ⟨hy1, hy2⟩

theorem Base.deletions (hc : Core env s) (hi : s.slots[i]? = some sl) (hs : sl.state = .inUse)
    (hx : sl.Owns x) (h : Base env ok s t) : t.deletions x = s.deletions x := by
  cases h with
  | quiet => rfl
  | sweep h =>
    cases h with
    | full he =>
      have := Evicts.deletions hc hi hs hx he
      exact this
    | @short u d he =>
      have hlog : (u.log (.shortfall d)).deletions x = u.deletions x :=
        List.countP_cons_of_neg (by simp [Event.deletes])
      exact hlog.trans (Evicts.deletions hc hi hs hx he)
  | @gain j a m n old hj ho hok hn hg b hb =>
    have hput : (s.gained env j old a n).deletions x = s.deletions x :=
      (State.deletions_putSlot (s := s.created env a n)).trans State.deletions_created
    exact (State.deletions_congr (State.withBook_trace _ _)).trans hput
  | clear => exact State.deletions_putSlot
  | @split j k m old e =>
    have hput : (s.splitAt j old k m).deletions x = s.deletions x :=
      State.deletions_putSlot.trans State.deletions_putSlot
    exact (State.deletions_congr (State.withBook_trace _ _)).trans hput

theorem Bases.deletions (hok : ∀ n, ok n → WholePages env n) (hc : Core env s)
    (hi : s.slots[i]? = some sl) (hs : sl.state = .inUse) (hx : sl.Owns x)
    (h : Bases env ok s t) : t.deletions x = s.deletions x := by
  induction h with
  | refl => rfl
  | tail h hb ih =>
    exact (hb.deletions (Bases.core h hok hc) ((Bases.inUse h hok hc hs).mpr hi) hs hx).trans ih

end Deletions

section Listed

/-- The list's slot is the only one that the allocator uses itself, and the list has as many
records as fit into its pages. -/
structure Listed (env : Env) (s : State) : Prop where
  only : ∀ ⦃i : ℕ⦄ ⦃sl : Slot⦄, s.slots[i]? = some sl → sl.state = .inUse →
    sl.allocator.type = .internal → sl.IsList s
  size : ∃ k, 1 ≤ k ∧ s.allocListSize = k * env.pageSize ∧ s.slots.length = k * env.slotsPerPage

theorem Listed.back (h : Listed env s) (hl : t.allocList = s.allocList ∧
      t.allocListSize = s.allocListSize) (hn : t.slots.length = s.slots.length)
    (hb : ∀ ⦃i : ℕ⦄ ⦃sl : Slot⦄, t.slots[i]? = some sl → sl.state = .inUse →
      sl.allocator.type = .internal → s.slots[i]? = some sl) : Listed env t where
  only i sl hi hs ha := by
    have hL := h.only (hb hi hs ha) hs ha
    exact ⟨hL.state, hL.allocator, hL.user.trans hl.1.symm, hL.size.trans hl.2.symm⟩
  size := by
    rw [hl.2, hn]
    exact h.size

theorem Listed.congr (h : Listed env s) (hs : t.slots = s.slots) (hl : t.allocList = s.allocList)
    (hn : t.allocListSize = s.allocListSize) : Listed env t :=
  h.back ⟨hl, hn⟩ (by rw [hs]) fun _ _ hi _ _ => hs ▸ hi

theorem Base.length (h : Base env ok s t) : t.slots.length = s.slots.length := by
  have put : ∀ (u : State) (k : ℕ) (v : Slot), (u.putSlot k v).slots.length = u.slots.length :=
    fun u k v => by rw [State.putSlot_slots, List.length_set]
  cases h with
  | quiet => rfl
  | sweep h =>
    obtain ⟨u, he, hu⟩ := h.evicts
    rw [hu, Evicts.length he]
  | @gain j a m n old hj ho hok hn hg b hb =>
    rw [State.withBook_slots]
    exact put (s.created env a n) _ _
  | clear => exact put _ _ _
  | split =>
    rw [State.useSlot_slots]
    exact (put _ _ _).trans (put _ _ _)

theorem Bases.length (h : Bases env ok s t) : t.slots.length = s.slots.length := by
  induction h with
  | refl => rfl
  | tail _ hb ih => exact hb.length.trans ih

theorem Listed.bases (h : Listed env s) (hok : ∀ n, ok n → WholePages env n) (hc : Core env s)
    (hb : Bases env ok s t) : Listed env t :=
  h.back (Bases.allocList hb) (Bases.length hb) fun _ _ hi hs _ => (Bases.inUse hb hok hc hs).mp hi

theorem Take.length (h : Take env n al r i l s t) : t.slots.length = s.slots.length := by
  obtain ⟨sl, new, -, -, -, -, hs, -⟩ := h.entry
  rw [hs, List.length_set]

theorem Release.length (h : Release env i sl site s t) : t.slots.length = s.slots.length := by
  cases h with
  | guard =>
    exact (congrArg List.length State.putSlot_slots).trans List.length_set
  | @delete p =>
    exact (congrArg List.length State.putSlot_slots).trans List.length_set

theorem Listed.take (h : Listed env s) (hT : Taken env n al r i l s t sl new)
    (hn : t.slots.length = s.slots.length) (hu : r.allocator.type ≠ .internal) : Listed env t := by
  obtain ⟨-, -, -, -, -, h1, h2⟩ := hT.frame
  refine h.back ⟨h1, h2⟩ hn fun k v hk hs ha => ?_
  rw [hT.slot] at hk
  split at hk
  · cases hk
    rw [hT.allocator_eq] at ha
    exact absurd ha hu
  · exact hk

theorem Listed.release (h : Listed env s) (hc : Core env s) (hi : s.slots[i]? = some sl)
    (hs : sl.state ≠ .empty) (hr : Release env i sl site s t) : Listed env t := by
  refine h.back hr.allocList hr.length fun k v hk hv ha => ?_
  by_cases hki : k = i
  · subst hki
    obtain ⟨new, hn, hst⟩ := hr.slot hi
    obtain rfl := Option.some.inj (hk.symm.trans hn)
    rcases hst with hst | hst <;> rw [hv] at hst <;> cases hst
  · exact (hr.local hc hi hs).back hki hk (by rw [hv]; nofun)

theorem Constructed.listed (h : Constructed env s) : Listed env s := by
  have h2 := env.two_lt_slotsPerPage
  refine ⟨fun i sl hi hs ha => ?_, 1, le_rfl, ?_, ?_⟩
  · rcases h.slot hi with ⟨-, rfl⟩ | ⟨-, rfl⟩ | ⟨-, rfl⟩
    · exact ⟨rfl, rfl, rfl, h.size.symm⟩
    · cases hs
    · cases hs
  · rw [h.size, Nat.one_mul]
  · rw [h.slots, firstSlots, List.length_cons, List.length_cons, List.length_replicate]
    omega

end Listed

section Growth

variable {j : ℕ} {old : Slot} {s₁ s₂ s₄ : State} {p : Page} {b : Book}

/-- What a growth of the list leaves. -/
structure Grown (env : Env) (s t : State) : Prop where
  moved : t.allocList ≠ s.allocList
  size : t.allocListSize = s.allocListSize + env.pageSize
  length : t.slots.length = s.slots.length + env.slotsPerPage
  slot : ∀ ⦃i : ℕ⦄ ⦃sl : Slot⦄, s.slots[i]? = some sl → sl.IsUser → t.slots[i]? = some sl
  appended : ∀ ⦃i : ℕ⦄ ⦃sl : Slot⦄, s.slots.length ≤ i → t.slots[i]? = some sl →
    sl.state = .empty
  deleted : ∀ ⦃i : ℕ⦄ ⦃sl : Slot⦄ ⦃x : ℕ⦄, s.slots[i]? = some sl → sl.IsList s → sl.Owns x →
    t.deletions x = s.deletions x + 1

theorem Bases.stays_empty (h : Bases env (fun _ => False) s t) (hi : s.slots[i]? = some sl)
    (hs : sl.state = .empty) : ∃ v, t.slots[i]? = some v ∧ v.state = .empty := by
  induction h with
  | refl => exact ⟨sl, hi, hs⟩
  | tail _ hb ih =>
    obtain ⟨v, hv, he⟩ := ih
    cases hb with
    | quiet => exact ⟨v, hv, he⟩
    | sweep hw =>
      obtain ⟨u, hev, hu⟩ := hw.evicts
      exact ⟨v, hu ▸ Evicts.slot hev hv fun hp => hp.ne_empty he, he⟩
    | gain _ _ hok => exact hok.elim
    | @clear k e hk hke =>
      rw [State.getElem?_putSlot hk]
      split
      · exact ⟨_, rfl, hke⟩
      · exact ⟨v, hv, he⟩
    | split _ _ _ _ _ hok => exact hok.elim

theorem Core.wholeNeed (h : Core env s) : ∀ n, n = s.listNeed env → WholePages env n :=
  fun _ hn => hn ▸ h.wholeList

namespace Move

variable (m : Move env s s₁ s₂ s₄ t i j l old new sl p b)
include m

theorem slots_eq : t.slots = s₄.slots.set j sl.emptied := by
  rw [m.eq, State.withBook_slots, State.dropped, State.putSlot_slots]
  rfl

theorem allocList_eq : t.allocList = new.userAddress := by
  have h1 : t.allocList = s₄.allocList := by
    rw [m.eq]
    exact State.putSlot_allocList
  rw [h1, (Bases.allocList m.after).1, m.taken.new_eq]
  rfl

theorem length_eq : t.slots.length = s.slots.length + env.slotsPerPage := by
  rw [m.slots_eq, List.length_set, Bases.length m.after, ← Bases.length m.before,
    ← m.take.length, State.switched, State.switchList, List.length_append, List.length_replicate]

theorem size_eq : t.allocListSize = s.allocListSize + env.pageSize := by
  have h1 : t.allocListSize = s₄.allocListSize := by
    rw [m.eq]
    exact State.putSlot_allocListSize
  rw [h1, (Bases.allocList m.after).2, ← (Bases.allocList m.before).2]
  exact m.core₁.listServed.2.1

theorem grown (hc : Core env s) : Grown env s t where
  moved he := by
    have hi : s₂.slots[i]? = some new := by rw [m.taken.slot, if_pos rfl]
    have hj : s₂.slots[j]? = some sl := by rw [m.taken.slot, if_neg m.ne.symm, m.slot₁]
    rw [m.allocList_eq, ← (Bases.allocList m.before).1, ← m.list.user] at he
    exact m.ne.symm (m.core₂.eq_of_user hi hj he
      (he ▸ m.list.user ▸ m.core₁.allocList_pos.ne'))
  size := m.size_eq
  length := m.length_eq
  slot k v hk hu := (m.kept hc).keeps.slot hk hu
  appended k v hk hv := by
    have hlen : s.slots.length = s₂.slots.length := by
      rw [m.take.length, Bases.length m.before]
    have hjk : j ≠ k := by
      rintro rfl
      have := (List.getElem?_eq_some_iff.mp m.slot₁).1
      rw [Bases.length m.before] at this
      omega
    rw [m.slots_eq, List.getElem?_set_ne hjk] at hv
    have hlt := (List.getElem?_eq_some_iff.mp hv).1
    rw [Bases.length m.after] at hlt
    obtain ⟨e, he⟩ : ∃ e, (s₁.switched env s₂ l).slots[k]? = some e :=
      ⟨_, List.getElem?_eq_getElem hlt⟩
    have hz : e.state = .empty := by
      rcases (State.switchList_slot _ _ k).2 e he with h | rfl
      · exact absurd (List.getElem?_eq_some_iff.mp h).1 (by omega)
      · rfl
    obtain ⟨v', hv', hs⟩ := Bases.stays_empty m.after he hz
    obtain rfl := Option.some.inj (hv.symm.trans hv')
    exact hs
  deleted k v x hk hL hx := by
    have hk₁ : s₁.slots[k]? = some v :=
      (Bases.inUse m.before hc.wholeNeed hc hL.state).mpr hk
    have hu : v.userAddress = sl.userAddress := by
      rw [hL.user, m.list.user, (Bases.allocList m.before).1]
    obtain rfl := m.core₁.eq_of_user hk₁ m.slot₁ hu (hL.user ▸ hc.allocList_pos.ne')
    obtain rfl := Option.some.inj (hk₁.symm.trans m.slot₁)
    have hk₃ : (s₁.switched env s₂ l).slots[k]? = some v := by
      refine (State.switchList_slot _ _ _).1 _ ?_
      rw [m.taken.slot, if_neg m.ne.symm, m.slot₁]
    have h1 := Bases.deletions hc.wholeNeed hc hk hL.state hx m.before
    have h2 : (s₁.switched env s₂ l).deletions x = s₁.deletions x :=
      (State.deletions_congr rfl).trans m.take.deletions
    have h3 := Bases.deletions (fun _ => False.elim) m.core₃ hk₃ hL.state hx m.after
    have h4 : t.deletions x = s₄.deletions x + 1 := by
      rw [m.eq, State.deletions_congr (State.withBook_trace _ _), State.dropped,
        State.deletions_putSlot, State.deletions_deleted, if_pos]
      have hr := (hc.slot hk).region (hL.state.trans_ne (by decide))
      rw [Env.roundUp_of_dvd hr.size_dvd]
      exact hx
    rw [h4, h3, h2, h1]

theorem listed (hc : Core env s) (h : Listed env s) : Listed env t where
  only k v hk hs ha := by
    have h4 := (m.kept hc).core.list_slot
    rw [m.slots_eq, List.getElem?_set] at hk
    split at hk
    · split at hk
      · cases hk
        cases hs
      · cases hk
    · next hjk =>
      have hk₃ := (Bases.inUse m.after (fun _ => False.elim) m.core₃ hs).mp hk
      have hk₂ : s₂.slots[k]? = some v := by
        rcases (State.switchList_slot _ _ k).2 v hk₃ with h | rfl
        · exact h
        · cases hs
      rw [m.taken.slot] at hk₂
      split at hk₂
      · cases hk₂
        refine ⟨hs, ?_, m.allocList_eq.symm, ?_⟩
        · exact ((m.core₄.slot hk).internal hs ha).1
        · rw [m.size_eq, ← (Bases.allocList m.before).2, m.taken.new_eq]
          exact m.core₁.listServed.2.1
      · have hL := (h.bases hc.wholeNeed hc m.before).only hk₂ hs ha
        refine absurd (m.core₁.eq_of_user m.slot₁ hk₂ (m.list.user.trans hL.user.symm) ?_) hjk
        rw [m.list.user]
        exact m.core₁.allocList_pos.ne'
  size := by
    obtain ⟨k, hk, h1, h2⟩ := h.size
    refine ⟨k + 1, by omega, ?_, ?_⟩
    · rw [m.size_eq, h1, Nat.add_one_mul]
    · rw [m.length_eq, h2, Nat.add_one_mul]

end Move

end Growth

section Runs

variable {works : Config → Prop} {serves : ℕ → ℕ → Request → Prop}

theorem Listed.inners (h : Listed env s) (hok : ∀ n, ok n → WholePages env n) (hc : Core env s)
    (hi : Inners env ok s t) : Listed env t := by
  induction hi with
  | refl => exact h
  | tail hi hs ih =>
    have hcore := (Inners.kept hok hc hi).core
    cases hs with
    | base hb => exact ih.bases hok hcore (.single hb)
    | growth hg =>
      obtain ⟨s₁, s₂, s₄, i, j, l, old, new, sl, p, b, m⟩ := hg.move hcore
      exact m.listed hcore ih

theorem Act.listed (hS : ∀ n al r, serves n al r → Served env n al r) (hs : Safe env s)
    (h : Listed env s) (ha : Act env works serves s t) : Listed env t := by
  cases ha with
  | silent _ ha =>
    cases ha with
    | inner hi => exact h.inners (fun _ => False.elim) hs.core (.single hi)
    | list => exact h.congr rfl rfl rfl
    | depth => exact h.congr rfl rfl rfl
  | serve _ hr hu hi ht =>
    obtain ⟨hk, ⟨sl, new, hT⟩, -⟩ := hs.serve (hS _ _ _ hr) hu hi ht
    exact (h.inners (hS _ _ _ hr).whole hs.core hi).take hT ht.length hu
  | release _ hi h0 hp hu hr =>
    exact h.release hs.core hi ((hs.core.slot hi).state_ne h0) hr
  | store => exact h.congr rfl rfl rfl
  | set => exact h.congr rfl rfl rfl
  | initDone => exact h.congr rfl rfl rfl

theorem Run.listed (hb : settings.Proper env) (h : Run env settings w) : Listed env w.st :=
  (h.always (run_driven hb) (fun _ hc => hc.listed) fun _ _ hs hl ha =>
    ha.listed (fun _ _ _ => id) hs hl).2

/-- One slot describes the list: its place, its size and, with that, the number of its records. -/
structure SelfDescribing (env : Env) (s : State) : Prop where
  one : ∃! i : ℕ, ∃ sl : Slot, s.slots[i]? = some sl ∧ sl.state = .inUse ∧ sl.allocator = .intAlloc
  list : ∀ ⦃i : ℕ⦄ ⦃sl : Slot⦄, s.slots[i]? = some sl → sl.state = .inUse →
    sl.allocator = .intAlloc → sl.userAddress = s.allocList ∧ sl.userSize = s.allocListSize
  dvd : env.pageSize ∣ s.allocList
  size : ∃ k, 1 ≤ k ∧ s.allocListSize = k * env.pageSize ∧ s.slots.length = k * env.slotsPerPage
  fits : s.slots.length * sizeofSlot ≤ s.allocListSize

/-- What an unsuccessful growth leaves as it was. -/
structure Ungrown (s t : State) : Prop where
  list : t.allocList = s.allocList
  size : t.allocListSize = s.allocListSize
  length : t.slots.length = s.slots.length
  inUse : ∀ ⦃i : ℕ⦄ ⦃sl : Slot⦄, sl.state = .inUse →
    (t.slots[i]? = some sl ↔ s.slots[i]? = some sl)

/-- The state in which a call that starts in `s` grows the list: the list is open and the counters
and the settings may have changed. -/
def State.atGrowth (env : Env) (s : State) (book : Book) (cfg : Config) (tls : Tls) : State :=
  { s.setList env .readWrite with book, cfg, tls }

theorem Safe.selfDescribing (hs : Safe env s) (h : Listed env s) : SelfDescribing env s where
  one := by
    obtain ⟨i, sl, hi, hL⟩ := hs.core.list
    refine ⟨i, ⟨sl, hi, hL.state, hL.allocator⟩, ?_⟩
    rintro j ⟨v, hj, hv, ha⟩
    have hL' := h.only hj hv (by rw [ha]; rfl)
    refine hs.core.eq_of_user hj hi (hL'.user.trans hL.user.symm) ?_
    rw [hL'.user]
    exact hs.core.allocList_pos.ne'
  list i sl hi hst ha := by
    have hL := h.only hi hst (by rw [ha]; rfl)
    exact ⟨hL.user, hL.size⟩
  dvd := by
    obtain ⟨i, sl, hi, hL, hr, ha, -⟩ := hs.core.list_slot
    exact ha ▸ hr.dvd
  size := h.size
  fits := hs.tidy.length

/-- A growth under the invariants succeeds or leaves the list as it was. -/
theorem allocateMoreSlots_post (hc : Core env s) (hT : Tidy env s) :
    Post (allocateMoreSlots env) (fun _ t => Grown env s t ∨ Ungrown s t) s := by
  have hany : GrowStops env (fun _ => True) s :=
    ⟨fun _ _ _ _ => trivial, fun _ _ _ => ⟨fun _ _ _ => trivial, fun _ _ _ _ => trivial,
      fun _ _ => trivial⟩, fun _ => trivial⟩
  have hcases : Ensures env (fun _ => False) _ _ _ s := allocateMoreSlots_cases backs_id hT hany
  refine Wp.mono hcases ?_ fun _ _ _ => trivial
  rintro _ t (h | h)
  · have hl := Bases.allocList h
    exact Or.inr ⟨hl.1, hl.2, Bases.length h, fun _ _ hs =>
      Bases.inUse h (fun _ => False.elim) hc hs⟩
  · obtain ⟨s₁, s₂, s₄, i, j, l, old, new, sl, p, b, m⟩ := h.move hc
    exact Or.inl (m.grown hc)

theorem list_describes_itself (hb : settings.Proper env) (h : Run env settings w) :
    SelfDescribing env w.st ∧ ∀ book cfg tls t,
      allocateMoreSlots env (w.st.atGrowth env book cfg tls) = .ok () t →
        Grown env (w.st.atGrowth env book cfg tls) t ∨
          Ungrown (w.st.atGrowth env book cfg tls) t := by
  have hs := Run.safe hb h
  refine ⟨hs.selfDescribing (Run.listed hb h), fun book cfg tls t ht => ?_⟩
  have hopen : Core env (w.st.setList env .readWrite) := hs.core.setList nofun
  have hpost : Post (allocateMoreSlots env) (fun _ t =>
      Grown env (w.st.atGrowth env book cfg tls) t ∨ Ungrown (w.st.atGrowth env book cfg tls) t)
      (w.st.atGrowth env book cfg tls) :=
    allocateMoreSlots_post (hopen.congr rfl rfl rfl rfl rfl rfl) (hs.tidy.congr rfl rfl rfl)
  exact hpost.returns ht

theorem list_describes_itself_sample : ∃ w t, Run Env.sample (Settings.sample 3 (-1)) w ∧
    Env.sample.slotsPerPage < w.st.slots.length ∧ SelfDescribing Env.sample w.st ∧
    allocateMoreSlots Env.sample (w.st.atGrowth Env.sample w.st.book w.st.cfg w.st.tls) = .ok () t ∧
      Grown Env.sample (w.st.atGrowth Env.sample w.st.book w.st.cfg w.st.tls) t := by
  obtain ⟨w, hw, hp⟩ := exists_run (Settings.sample 3 (-1)) busyCalls (fun w =>
    decide (Env.sample.slotsPerPage < w.st.slots.length) &&
      yields (allocateMoreSlots Env.sample) (w.st.atGrowth Env.sample w.st.book w.st.cfg w.st.tls)
        fun _ t => decide (w.st.slots.length < t.slots.length)) (by decide +kernel)
  obtain ⟨hlen, hp⟩ := Bool.and_eq_true _ _ ▸ hp
  obtain ⟨⟨⟩, t, he, hlt⟩ := exists_yields hp
  obtain ⟨hself, hgrow⟩ := list_describes_itself (Settings.sample_proper _ _) hw
  refine ⟨w, t, hw, of_decide_eq_true hlen, hself, he, (hgrow _ _ _ t he).resolve_right fun h => ?_⟩
  exact absurd (of_decide_eq_true hlt) (h.length ▸ lt_irrefl _)

end Runs

end Duma

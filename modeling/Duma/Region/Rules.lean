import Duma.Region.Shape

/-! # Rules for the slot invariant

Each way in which the code changes a slot and its memory keeps the invariant: a region loses
pages, appears, is cut in two, or keeps its pages while its slot gets another record.
-/

namespace Duma

variable {env : Env} {s s' : State} {i j a n x : ℕ} {sl new : Slot} {p : Page}

theorem State.owns_putSlot (h : s.slots[i]? = some sl) (k : ℕ) :
    (s.putSlot i new).Owns k x ↔
      if k = i then new.state ≠ .empty ∧ new.Owns x else s.Owns k x := by
  unfold State.Owns
  rw [State.getElem?_putSlot h]
  by_cases hk : i = k
  · subst hk
    simp
  · rw [if_neg hk, if_neg (Ne.symm hk)]

theorem State.owns_congr (hs : s'.slots = s.slots) (k : ℕ) : s'.Owns k x ↔ s.Owns k x := by
  unfold State.Owns; rw [hs]

theorem State.owns_iff (h : s.slots[i]? = some sl) (hs : sl.state ≠ .empty) :
    s.Owns i x ↔ sl.Owns x := by
  constructor
  · rintro ⟨sl', h', -, hx⟩
    rw [h] at h'
    cases h'
    exact hx
  · exact fun hx => ⟨sl, h, hs, hx⟩

theorem State.not_owns (h : s.slots[i]? = some sl) (hs : sl.state = .empty) : ¬ s.Owns i x := by
  rintro ⟨sl', h', hne, -⟩
  rw [h] at h'
  cases h'
  exact hne hs

/-- The general rule for a record assigned in a state that differs from `s` in pages and trace. -/
theorem Core.putSlot {t : State} (h : Core env s) (hslots : t.slots = s.slots)
    (hnb : t.nullBlock = s.nullBlock) (hal : t.allocList = s.allocList)
    (hals : t.allocListSize = s.allocListSize) (hi : s.slots[i]? = some sl)
    (hl : sl.IsList s → new.IsList s) (hnew : new.WellFormed env)
    (hpart : Ownership (t.putSlot i new).Owns {x | held t.trace x ∧ ¬ s.InNull env x})
    (hmap : ∀ x, held t.trace x → t.page env x ≠ .unmapped)
    (hnull : ∀ x, s.InNull env x → held t.trace x) : Core env (t.putSlot i new) := by
  have hti : t.slots[i]? = some sl := hslots ▸ hi
  have hInNull : ∀ x, (t.putSlot i new).InNull env x ↔ s.InNull env x := fun x => by
    rw [State.InNull, State.putSlot_nullBlock, hnb]; rfl
  have hlist : ∀ sl' : Slot, sl'.IsList s → sl'.IsList (t.putSlot i new) := fun sl' hL =>
    ⟨hL.state, hL.allocator, by simpa [hal] using hL.user, by simpa [hals] using hL.size⟩
  refine ⟨fun k sl' hk => ?_, ?_, fun x hx => ?_, fun x hx => ?_, ?_, ?_⟩
  · rw [State.getElem?_putSlot hti] at hk
    split at hk
    · cases hk; exact hnew
    · exact h.slot (hslots ▸ hk)
  · refine hpart.congr (fun _ _ => Iff.rfl) fun x => ?_
    simp only [State.heldMem, Set.mem_ofPred_eq, State.held_putSlot, hInNull]
  · rw [State.putSlot_page]
    exact hmap x (State.held_putSlot.mp hx)
  · exact State.held_putSlot.mpr (hnull x ((hInNull x).mp hx))
  · rw [State.putSlot_nullBlock, hnb]
    exact h.null_pos
  · obtain ⟨l, sl', hl', hL⟩ := h.list
    by_cases hil : i = l
    · subst hil
      rw [hi] at hl'
      cases hl'
      exact ⟨i, new, by rw [State.getElem?_putSlot hti, if_pos rfl], hlist _ (hl hL)⟩
    · exact ⟨l, sl', by rw [State.getElem?_putSlot hti, if_neg hil, hslots, hl'], hlist _ hL⟩

theorem Core.congr (h : Core env s) (hs : s'.slots = s.slots) (ht : s'.trace = s.trace)
    (hp : s'.pages = s.pages) (hn : s'.nullBlock = s.nullBlock) (ha : s'.allocList = s.allocList)
    (hl : s'.allocListSize = s.allocListSize) : Core env s' where
  slot _ _ hi := h.slot (hs ▸ hi)
  part := h.part.congr (fun k x => State.owns_congr hs k) fun x => by
    rw [State.heldMem, State.heldMem, Set.mem_ofPred_eq, Set.mem_ofPred_eq, ht, State.InNull,
      State.InNull, hn]
  mapped x hx := by
    rw [State.page, hp]
    exact h.mapped (ht ▸ hx)
  null x hx := by
    rw [State.InNull, hn] at hx
    exact ht ▸ h.null hx
  null_pos := hn ▸ h.null_pos
  list := h.list.imp fun _ ⟨sl, hi, hL⟩ =>
    ⟨sl, hs ▸ hi, hL.state, hL.allocator, hL.user.trans ha.symm, hL.size.trans hl.symm⟩

theorem Core.of_pages (h : Core env s) {pages : PageMap Page}
    (hp : ∀ x, held s.trace x → pages.get env.pageSize x ≠ .unmapped) :
    Core env { s with pages } where
  slot := h.slot
  part := h.part
  mapped _ hx := hp _ hx
  null := h.null
  null_pos := h.null_pos
  list := h.list.imp fun _ ⟨sl, hl, hL⟩ => ⟨sl, hl, ⟨hL.state, hL.allocator, hL.user, hL.size⟩⟩

theorem Core.setPages (h : Core env s) {lo hi : ℕ} (hlo : env.pageSize ∣ lo)
    (hhi : env.pageSize ∣ hi) (hp : p ≠ .unmapped) : Core env (s.setPages env lo hi p) := by
  refine h.of_pages fun x hx => ?_
  have := State.setPages_page (s := s) (p := p) (x := x) hlo hhi
  unfold State.page State.setPages at this
  rw [this]
  split
  · exact hp
  · exact h.mapped hx

theorem Core.of_mem (h : Core env s) {mem : ℕ → UInt8} : Core env { s with mem } where
  slot := h.slot
  part := h.part
  mapped := h.mapped
  null := h.null
  null_pos := h.null_pos
  list := h.list.imp fun _ ⟨sl, hl, hL⟩ => ⟨sl, hl, ⟨hL.state, hL.allocator, hL.user, hL.size⟩⟩

theorem Core.of_book (h : Core env s) {book : Book} : Core env { s with book } where
  slot := h.slot
  part := h.part
  mapped := h.mapped
  null := h.null
  null_pos := h.null_pos
  list := h.list.imp fun _ ⟨sl, hl, hL⟩ => ⟨sl, hl, ⟨hL.state, hL.allocator, hL.user, hL.size⟩⟩

theorem Core.of_trace (h : Core env s) {trace : List Event}
    (ht : ∀ x, held trace x ↔ held s.trace x) : Core env { s with trace } where
  slot := h.slot
  part := h.part.congr (fun _ _ => Iff.rfl) fun x => by
    simp only [State.heldMem, Set.mem_ofPred_eq, ht, State.InNull]
  mapped x hx := h.mapped ((ht x).mp hx)
  null x hx := (ht x).mpr (h.null hx)
  null_pos := h.null_pos
  list := h.list.imp fun _ ⟨sl, hl, hL⟩ => ⟨sl, hl, ⟨hL.state, hL.allocator, hL.user, hL.size⟩⟩

theorem Core.giveUp (h : Core env s) (hi : s.slots[i]? = some sl) (hs : sl.state ≠ .empty)
    (hl : ¬ sl.IsList s) (ha : env.pageSize ∣ a) (hn : env.pageSize ∣ n)
    (hin : ∀ x, a ≤ x → x < a + n → sl.Owns x) (hnew : new.WellFormed env)
    (hkeep : ∀ x, new.Owns x ↔ sl.Owns x ∧ ¬ (a ≤ x ∧ x < a + n)) :
    Core env ((s.deleted env a n p).putSlot i new) := by
  have hheld : ∀ x, held (s.deleted env a n p).trace x ↔
      held s.trace x ∧ ¬ (a ≤ x ∧ x < a + n) := fun x => by
    simp only [State.deleted, State.log, State.setPages, held, Env.roundUp_of_dvd hn]
  have hown := fun x => State.owns_iff (x := x) hi hs
  have hown' : ∀ k x, ((s.deleted env a n p).putSlot i new).Owns k x ↔
      if k = i then new.state ≠ .empty ∧ new.Owns x else s.Owns k x := fun k x =>
    State.owns_putSlot (s := s.deleted env a n p) hi k
  have hnew' : ∀ x, ((s.deleted env a n p).putSlot i new).Owns i x ↔ new.Owns x := fun x => by
    rw [hown', if_pos rfl]
    exact ⟨And.right, fun hx => ⟨fun he => hnew.not_owns he hx, hx⟩⟩
  refine h.putSlot (t := s.deleted env a n p) rfl rfl rfl rfl hi (fun hL => absurd hL hl) hnew
    ?_ (fun x hx => ?_) fun x hx => ?_
  · refine h.part.shrink (i := i) (fun k x hk => by rw [hown', if_neg hk]) (fun x hx => ?_)
      fun x => ?_
    · exact (hown x).mpr ((hkeep x).mp ((hnew' x).mp hx)).1
    · simp only [Set.mem_ofPred_eq, State.heldMem, hheld, hown, hnew', hkeep]
      constructor
      · rintro ⟨⟨h1, h2⟩, h3⟩
        exact ⟨⟨h1, h3⟩, fun hx => ⟨hx, h2⟩⟩
      · rintro ⟨⟨h1, h3⟩, h2⟩
        exact ⟨⟨h1, fun hx => (h2 (hin x hx.1 hx.2)).2 hx⟩, h3⟩
  · rw [hheld] at hx
    rw [State.deleted_page ha, Env.roundUp_of_dvd hn, if_neg hx.2]
    exact h.mapped hx.1
  · exact (hheld x).mpr ⟨h.null hx, fun hax =>
      h.not_null_of_owns ((hown x).mpr (hin x hax.1 hax.2)) hx⟩

structure State.Granted (env : Env) (s : State) (a n : ℕ) : Prop where
  size_pos : 0 < n
  dvd : env.pageSize ∣ a
  pos : 0 < a
  le : a + env.roundUp n ≤ env.taskSize
  fresh : ∀ x, a ≤ x → x < a + env.roundUp n → s.page env x = .unmapped

theorem Core.gain (h : Core env s) (hi : s.slots[i]? = some sl) (hs : sl.state = .empty)
    (hg : s.Granted env a n) (hn : env.pageSize ∣ n) (hnew : new.WellFormed env)
    (hown : ∀ x, new.Owns x ↔ a ≤ x ∧ x < a + n) :
    Core env ((s.created env a n).putSlot i new) := by
  have hr := Env.roundUp_of_dvd hn
  have hheld : ∀ x, held (s.created env a n).trace x ↔
      (a ≤ x ∧ x < a + n) ∨ held s.trace x := fun x => by
    simp only [State.created, State.log, State.setPages, held, hr]
  have hown' : ∀ k x, ((s.created env a n).putSlot i new).Owns k x ↔
      if k = i then new.state ≠ .empty ∧ new.Owns x else s.Owns k x := fun k x =>
    State.owns_putSlot (s := s.created env a n) hi k
  have hnew' : ∀ x, ((s.created env a n).putSlot i new).Owns i x ↔ a ≤ x ∧ x < a + n :=
    fun x => by
      rw [hown', if_pos rfl, ← hown]
      exact ⟨And.right, fun hx => ⟨fun he => hnew.not_owns he hx, hx⟩⟩
  have hfresh : ∀ x, a ≤ x → x < a + n → ¬ held s.trace x := fun x h1 h2 hx =>
    h.mapped hx (hg.fresh x h1 (by omega))
  refine h.putSlot (t := s.created env a n) rfl rfl rfl rfl hi (fun hL => ?_) hnew ?_
    (fun x hx => ?_) fun x hx => ?_
  · rw [hL.state] at hs; cases hs
  · refine h.part.extend (i := i) (fun k x hk => by rw [hown', if_neg hk])
      (fun x => State.not_owns hi hs) (fun x hx => ?_) fun x => ?_
    · rw [hnew'] at hx
      exact fun hS => hfresh x hx.1 hx.2 hS.1
    · simp only [Set.mem_ofPred_eq, State.heldMem, hheld, hnew']
      constructor
      · rintro ⟨h1 | h1, h2⟩
        exacts [Or.inr h1, Or.inl ⟨h1, h2⟩]
      · rintro (⟨h1, h2⟩ | h1)
        exacts [⟨Or.inr h1, h2⟩, ⟨Or.inl h1, fun hx => hfresh x h1.1 h1.2 (h.null hx)⟩]
  · rw [State.created_page hg.dvd, hr]
    split
    · decide
    · next hx' => exact h.mapped (((hheld x).mp hx).resolve_left hx')
  · exact (hheld x).mpr (Or.inr (h.null hx))

theorem Core.relabel (h : Core env s) (hi : s.slots[i]? = some sl) (hs : sl.state ≠ .empty)
    (hl : sl.IsList s → new.IsList s) (hnew : new.WellFormed env)
    (hown : ∀ x, new.Owns x ↔ sl.Owns x) : Core env (s.putSlot i new) := by
  refine h.putSlot (t := s) rfl rfl rfl rfl hi hl hnew ?_ h.mapped h.null
  refine h.part.congr (fun k x => ?_) fun _ => Iff.rfl
  rw [State.owns_putSlot hi]
  split
  · next hk =>
    rw [hk, State.owns_iff hi hs, hown]
    exact ⟨And.right, fun hx => ⟨fun he => hnew.not_owns he ((hown x).mpr hx), hx⟩⟩
  · rfl

theorem Core.relabelEmpty (h : Core env s) (hi : s.slots[i]? = some sl) (hs : sl.state = .empty)
    (hnew : new.WellFormed env) (hne : new.state = .empty) : Core env (s.putSlot i new) := by
  refine h.putSlot (t := s) rfl rfl rfl rfl hi (fun hL => ?_) hnew ?_ h.mapped h.null
  · rw [hL.state] at hs; cases hs
  refine h.part.congr (fun k x => ?_) fun _ => Iff.rfl
  rw [State.owns_putSlot hi]
  split
  · next hk =>
    rw [hk]
    exact ⟨fun hx => absurd hne hx.1, fun hx => absurd hx (State.not_owns hi hs)⟩
  · rfl

theorem Core.cut {e low high : Slot} (h : Core env s) (hi : s.slots[i]? = some sl)
    (hs : sl.state ≠ .empty) (hl : ¬ sl.IsList s) (hj : s.slots[j]? = some e)
    (he : e.state = .empty) (hlow : low.WellFormed env) (hhigh : high.WellFormed env)
    (hdisj : ∀ x, low.Owns x → ¬ high.Owns x)
    (hown : ∀ x, sl.Owns x ↔ low.Owns x ∨ high.Owns x) :
    Core env ((s.putSlot j high).putSlot i low) := by
  have hij : i ≠ j := by
    rintro rfl
    rw [hi] at hj
    cases hj
    exact hs he
  have hi' : (s.putSlot j high).slots[i]? = some sl := by
    rw [State.getElem?_putSlot hj, if_neg (Ne.symm hij), hi]
  have hown' : ∀ k x, ((s.putSlot j high).putSlot i low).Owns k x ↔
      if k = i then low.Owns x else if k = j then high.Owns x else s.Owns k x := fun k x => by
    rw [State.owns_putSlot hi', State.owns_putSlot hj]
    split
    · exact ⟨And.right, fun hx => ⟨fun he => hlow.not_owns he hx, hx⟩⟩
    · split
      · exact ⟨And.right, fun hx => ⟨fun he => hhigh.not_owns he hx, hx⟩⟩
      · rfl
  have hInNull : ∀ x, ((s.putSlot j high).putSlot i low).InNull env x ↔ s.InNull env x := by
    intro x; simp [State.InNull]
  refine ⟨fun k sl' hk => ?_, ?_, fun x hx => ?_, fun x hx => ?_, ?_, ?_⟩
  · rw [State.getElem?_putSlot hi', State.getElem?_putSlot hj] at hk
    split at hk
    · cases hk; exact hlow
    · split at hk
      · cases hk; exact hhigh
      · exact h.slot hk
  · have hpart : Ownership ((s.putSlot j high).putSlot i low).Owns (s.heldMem env) := by
      refine h.part.cut (i := i) (j := j) (fun k x hki hkj => ?_) (fun x => State.not_owns hj he)
        (fun x => ?_) fun x => ?_
      · rw [hown', if_neg hki, if_neg hkj]
      · rw [hown', hown', if_pos rfl, if_neg (Ne.symm hij), if_pos rfl]
        exact hdisj x
      · rw [State.owns_iff hi hs, hown', hown', if_pos rfl, if_neg (Ne.symm hij), if_pos rfl]
        exact hown x
    refine hpart.congr (fun _ _ => Iff.rfl) fun x => ?_
    simp only [State.heldMem, Set.mem_ofPred_eq, State.held_putSlot, hInNull]
  · rw [State.putSlot_page, State.putSlot_page]
    exact h.mapped (State.held_putSlot.mp (State.held_putSlot.mp hx))
  · exact State.held_putSlot.mpr (State.held_putSlot.mpr (h.null ((hInNull x).mp hx)))
  · simpa using h.null_pos
  · obtain ⟨l, sl', hl', hL⟩ := h.list
    refine ⟨l, sl', ?_, ⟨hL.state, hL.allocator, by simpa using hL.user, by simpa using hL.size⟩⟩
    rw [State.getElem?_putSlot hi', State.getElem?_putSlot hj, if_neg, if_neg, hl']
    · rintro rfl
      rw [hj] at hl'
      cases hl'
      rw [hL.state] at he; cases he
    · rintro rfl
      rw [hi] at hl'
      cases hl'
      exact hl hL

end Duma

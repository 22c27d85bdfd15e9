import Duma.Region.Frame

/-! # Releasing a block and the access to the list

A released slot either keeps its memory, which becomes inaccessible, or gives it up. Opening and
closing the list touches the pages of the list alone.
-/

namespace Duma

variable {env : Env} {ok : ℕ → Prop} {s s' s'' : State} {i k x : ℕ} {sl : Slot} {site : Site}
  {p : Page}

def State.guarded (env : Env) (s : State) (i : ℕ) (sl : Slot) (site : Site) : State :=
  (s.setPages env sl.internalAddress (sl.internalAddress + env.roundUp sl.internalSize)
    .noAccess).putSlot i (Slot.freedAt { sl with state := .allProtected } site)

/-- What `_duma_deallocate` does with the slot it has found. -/
inductive Release (env : Env) (i : ℕ) (sl : Slot) (site : Site) (s : State) : State → Prop
  | guard (hk : s.keepsProtected sl (kB sl.internalSize) = true) (b : Book)
      (hu : b.unUsedSlots = s.book.unUsedSlots) (hd : b.semDepth = s.book.semDepth)
      (ha : b.sumAllocatedMem = s.book.sumAllocatedMem)
      (hp : b.sumProtectedMem = s.book.sumProtectedMem + kB sl.internalSize) :
      Release env i sl site s { s.guarded env i sl site with book := b }
  | delete {p : Page} (hpage : p ≠ .readWrite) (b : Book)
      (hu : b.unUsedSlots = Word.add s.book.unUsedSlots 1) (hd : b.semDepth = s.book.semDepth)
      (ha : b.sumAllocatedMem = s.book.sumAllocatedMem - kB sl.internalSize)
      (hp : b.sumProtectedMem = s.book.sumProtectedMem) :
      Release env i sl site s { s.dropped env i sl p with book := b }

/-- The memory of the slot list is never protected. -/
theorem State.keepsProtected_allocator {k : ℕ} (h : s.keepsProtected sl k = true) :
    sl.allocator ≠ .intAlloc := by
  simp only [State.keepsProtected, Bool.and_eq_true, bne_iff_ne] at h
  exact h.1

namespace Slot

theorem freedAt_eq (sl : Slot) (site : Site) : ∃ src f n,
    sl.freedAt site = { sl with fileSource := src, filename := f, lineno := n } := by
  unfold freedAt
  split
  exacts [⟨_, _, _, rfl⟩, ⟨_, _, _, rfl⟩]

theorem freedAt_state : (sl.freedAt site).state = sl.state := by
  obtain ⟨src, f, n, h⟩ := freedAt_eq sl site; rw [h]

theorem freedAt_owns : (sl.freedAt site).Owns x ↔ sl.Owns x := by
  obtain ⟨src, f, n, h⟩ := freedAt_eq sl site; rw [h]; rfl

theorem WellFormed.freedAt (h : sl.WellFormed env) (hs : sl.state = .inUse)
    (ha : sl.allocator ≠ .intAlloc) :
    (Slot.freedAt { sl with state := .allProtected } site).WellFormed env := by
  have hr := h.region (by rw [hs]; nofun)
  have hown := (h.placed hs).owns_user hr
  have hty : sl.allocator.type ≠ .internal := fun hty => ha (h.internal hs hty).1
  obtain ⟨src, f, n, he⟩ := freedAt_eq { sl with state := .allProtected } site
  rw [he]
  exact .guarded (Or.inl rfl) ⟨hr.pos, hr.dvd, hr.size_dvd, hr.size_pos, hr.le⟩ hown hty

end Slot

section Guard

variable (h : Core env s) (hi : s.slots[i]? = some sl)
include h hi

theorem Core.guarded (hs : sl.state = .inUse) (ha : sl.allocator ≠ .intAlloc) :
    Core env (s.guarded env i sl site) := by
  have hr := (h.slot hi).region (by rw [hs]; nofun)
  have hpages : Core env (s.setPages env sl.internalAddress
      (sl.internalAddress + env.roundUp sl.internalSize) .noAccess) :=
    h.setPages hr.dvd (Nat.dvd_add hr.dvd (Env.dvd_roundUp _)) nofun
  refine hpages.relabel hi (by rw [hs]; nofun) (fun hL => absurd hL.allocator ha)
    ((h.slot hi).freedAt hs ha) fun x => ?_
  rw [Slot.freedAt_owns]
  rfl

theorem Local.guarded (hs : sl.state ≠ .empty) :
    Local env (· = i) sl.Owns s (s.guarded env i sl site) := by
  have hr := (h.slot hi).region hs
  have hput : Local env (· = i) (fun _ => False) (s.setPages env sl.internalAddress
      (sl.internalAddress + env.roundUp sl.internalSize) .noAccess) (s.guarded env i sl site) :=
    Local.putSlot hi
  refine ⟨hput.slot, hput.back, fun x hx => ?_, fun x _ => ?_, fun x k hx hk => ?_⟩
  · rw [State.guarded, State.putSlot_page,
      State.setPages_page hr.dvd (Nat.dvd_add hr.dvd (Env.dvd_roundUp _)),
      Env.roundUp_of_dvd hr.size_dvd]
    exact if_neg hx
  · rw [State.guarded, State.putSlot_mem]
    rfl
  · exact h.part.unique hk (h.owns hi hx)

theorem Local.dropped (hs : sl.state ≠ .empty) :
    Local env (· = i) sl.Owns s (s.dropped env i sl p) := by
  have hr := (h.slot hi).region hs
  have := Local.giveUp (p := p) (v := sl.emptied) h hi hr.dvd (n := sl.internalSize) (by
    rw [Env.roundUp_of_dvd hr.size_dvd]
    exact fun x hx1 hx2 => ⟨hx1, hx2⟩)
  rwa [Env.roundUp_of_dvd hr.size_dvd] at this

end Guard

namespace Release

variable (h : Release env i sl site s s')
include h

theorem «local» (hc : Core env s) (hi : s.slots[i]? = some sl) (hs : sl.state ≠ .empty) :
    Local env (· = i) sl.Owns s s' := by
  cases h with
  | guard ha b => exact (Local.guarded hc hi hs).withBook b
  | delete hp b => exact (Local.dropped hc hi hs).withBook b

theorem core (hc : Core env s) (hi : s.slots[i]? = some sl) (hs : sl.state = .inUse)
    (hl : ¬ sl.IsList s) : Core env s' := by
  cases h with
  | guard hk b => exact (hc.guarded hi hs (State.keepsProtected_allocator hk)).of_book
  | delete hp b => exact (hc.dropped hi (by rw [hs]; nofun) hl).of_book

theorem same : Same s s' := by
  cases h with
  | guard ha b hu hd =>
    exact ⟨State.putSlot_cfg, State.putSlot_tls, State.putSlot_initDone, State.putSlot_nullBlock, hd⟩
  | delete hp b hu hd =>
    exact ⟨State.putSlot_cfg, State.putSlot_tls, State.putSlot_initDone, State.putSlot_nullBlock, hd⟩

theorem allocList : s'.allocList = s.allocList ∧ s'.allocListSize = s.allocListSize := by
  cases h with
  | guard ha b => exact ⟨State.putSlot_allocList, State.putSlot_allocListSize⟩
  | delete hp b => exact ⟨State.putSlot_allocList, State.putSlot_allocListSize⟩

theorem slot (hi : s.slots[i]? = some sl) : ∃ new, s'.slots[i]? = some new ∧
    (new.state = .allProtected ∨ new.state = .empty) := by
  cases h with
  | guard ha b =>
    refine ⟨_, (State.getElem?_putSlot (s := s.setPages env _ _ _) hi).trans (if_pos rfl), ?_⟩
    exact Or.inl Slot.freedAt_state
  | @delete p hp b =>
    exact ⟨_, (State.getElem?_putSlot (s := s.deleted env _ _ p) hi).trans (if_pos rfl),
      Or.inr rfl⟩

theorem page (hr : sl.RegionOk env) (hx : sl.Owns x) : s'.page env x ≠ .readWrite := by
  have hd := Env.roundUp_of_dvd hr.size_dvd
  cases h with
  | guard ha b =>
    change (s.guarded env i sl site).page env x ≠ .readWrite
    rw [State.guarded, State.putSlot_page,
      State.setPages_page hr.dvd (Nat.dvd_add hr.dvd (Env.dvd_roundUp _)), hd,
      if_pos (show _ ∧ _ from hx)]
    nofun
  | @delete p hp b =>
    change (s.dropped env i sl p).page env x ≠ .readWrite
    rw [State.dropped, State.putSlot_page, State.deleted_page hr.dvd, hd, if_pos (show _ ∧ _ from hx)]
    exact hp

theorem «open» (hc : Core env s) (hi : s.slots[i]? = some sl) (hs : sl.state ≠ .empty)
    (hl : ¬ sl.IsList s) (hO : Open env s) : Open env s' := by
  obtain ⟨lst, sl', hl', hL, hown⟩ := hc.owns_list
  obtain ⟨h1, h2⟩ := h.allocList
  intro x hx1 hx2
  rw [h1] at hx1
  rw [h1, h2] at hx2
  have hloc := h.local hc hi hs
  rw [hloc.page fun hx => ?_]
  · exact hO x hx1 hx2
  · obtain rfl : lst = i := hloc.inside hx (hown x hx1 hx2)
    rw [hi] at hl'
    cases hl'
    exact hl hL

end Release

end Duma

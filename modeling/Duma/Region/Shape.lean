import Duma.Foundation.Ownership
import Duma.Region.Effects

/-! # Regions of slots

What a slot's record says in each of its states, where a block lies in its region, and the
partition of the held memory into regions.
-/

namespace Duma

variable {env : Env} {s s' : State} {sl sl' : Slot} {i j x : ℕ}

namespace Slot

def Owns (sl : Slot) (x : ℕ) : Prop :=
  sl.internalAddress ≤ x ∧ x < sl.internalAddress + sl.internalSize

def IsUser (sl : Slot) : Prop := sl.state = .inUse ∧ sl.allocator.type ≠ .internal

def IsProtected (sl : Slot) : Prop := sl.state = .allProtected ∨ sl.state = .beginProtected

/-- A region of whole pages in the address space of the process. -/
structure RegionOk (env : Env) (sl : Slot) : Prop where
  pos : 0 < sl.internalAddress
  dvd : env.pageSize ∣ sl.internalAddress
  size_dvd : env.pageSize ∣ sl.internalSize
  size_pos : 0 < sl.internalSize
  le : sl.internalAddress + sl.internalSize ≤ env.taskSize

/-- Where the block of a slot lies in its region. -/
inductive Placed (env : Env) (sl : Slot) : Prop
  /-- a request of 0 bytes -/
  | zero (hs : sl.userSize = 0) (hu : sl.userAddress = sl.internalAddress + env.pageSize / 2)
      (hp : sl.protAddress = sl.internalAddress) (hi : sl.internalSize = env.pageSize)
  /-- the dead page is above the block -/
  | above (hs : 0 < sl.userSize) (hu : sl.internalAddress ≤ sl.userAddress)
      (hp : env.pageSize ∣ sl.protAddress) (hle : sl.userAddress + sl.userSize ≤ sl.protAddress)
      (hlt : sl.protAddress < sl.userAddress + sl.userSize + env.pageSize)
      (hend : sl.protAddress + env.pageSize ≤ sl.internalAddress + sl.internalSize)
  /-- the dead page is below the block -/
  | below (hs : 0 < sl.userSize) (hu : env.pageSize ∣ sl.userAddress)
      (hp : sl.protAddress + env.pageSize = sl.userAddress)
      (hle : sl.internalAddress ≤ sl.protAddress)
      (hend : sl.userAddress + sl.userSize ≤ sl.internalAddress + sl.internalSize)
  /-- the first slot list -/
  | list (hs : sl.userSize = sl.internalSize) (hu : sl.userAddress = sl.internalAddress)
      (hp : sl.protAddress = 0) (ha : sl.allocator = .intAlloc)

/-- What the record of a slot says in each state. -/
inductive WellFormed (env : Env) (sl : Slot) : Prop
  | empty (h : sl.state = .empty) (hi : sl.internalAddress = 0) (hu : sl.userAddress = 0)
      (his : sl.internalSize = 0) (hus : sl.userSize = 0) (ha : sl.allocator = .intAlloc)
  | free (h : sl.state = .free) (hr : sl.RegionOk env)
      (hu : sl.userAddress = 0 ∨ sl.userAddress = sl.internalAddress)
      (ha : sl.allocator = .intAlloc)
  | inUse (h : sl.state = .inUse) (hr : sl.RegionOk env) (hp : sl.Placed env)
      (ha : sl.allocator.type = .internal → sl.allocator = .intAlloc ∧
        sl.userAddress = sl.internalAddress ∧ 0 < sl.userSize ∧ env.pageSize ∣ sl.userSize)
  | guarded (h : sl.IsProtected) (hr : sl.RegionOk env) (hu : sl.Owns sl.userAddress)
      (ha : sl.allocator.type ≠ .internal)

theorem Placed.owns_user (h : sl.Placed env) (hr : sl.RegionOk env) : sl.Owns sl.userAddress := by
  have := env.pageSize_pos
  have := hr.size_pos
  unfold Owns
  cases h <;> omega

namespace WellFormed

theorem region (h : sl.WellFormed env) (hs : sl.state ≠ .empty) : sl.RegionOk env := by
  cases h with
  | empty h => exact absurd h hs
  | free _ hr => exact hr
  | inUse _ hr => exact hr
  | guarded _ hr => exact hr

theorem not_owns (h : sl.WellFormed env) (hs : sl.state = .empty) : ¬ sl.Owns x := by
  cases h with
  | empty _ _ _ hi => unfold Owns; omega
  | free h => simp [h] at hs
  | inUse h => simp [h] at hs
  | guarded h => rcases h with h | h <;> simp [h] at hs

theorem placed (h : sl.WellFormed env) (hs : sl.state = .inUse) : sl.Placed env := by
  cases h <;> simp_all [IsProtected]

theorem owns_user (h : sl.WellFormed env) (hu : sl.userAddress ≠ 0) : sl.Owns sl.userAddress := by
  cases h with
  | empty _ _ h => exact absurd h hu
  | free _ hr h =>
    rcases h with h | h
    · exact absurd h hu
    · rw [h]; exact ⟨le_rfl, Nat.lt_add_of_pos_right hr.size_pos⟩
  | inUse _ hr hp => exact hp.owns_user hr
  | guarded _ _ h => exact h

theorem state_ne (h : sl.WellFormed env) (hu : sl.userAddress ≠ 0) : sl.state ≠ .empty :=
  fun hs => h.not_owns hs (h.owns_user hu)

theorem internal (h : sl.WellFormed env) (hs : sl.state = .inUse)
    (ha : sl.allocator.type = .internal) : sl.allocator = .intAlloc ∧
      sl.userAddress = sl.internalAddress ∧ 0 < sl.userSize ∧ env.pageSize ∣ sl.userSize := by
  cases h <;> simp_all

theorem free_internal (h : sl.WellFormed env) (hs : sl.state = .free) :
    sl.allocator = .intAlloc := by
  cases h <;> simp_all [IsProtected]

theorem owns_of_protected (h : sl.WellFormed env) (hs : sl.IsProtected) :
    sl.Owns sl.userAddress := by
  cases h <;> simp_all [IsProtected]

end WellFormed

end Slot

def State.Owns (s : State) (i x : ℕ) : Prop :=
  ∃ sl, s.slots[i]? = some sl ∧ sl.state ≠ .empty ∧ sl.Owns x

def State.InNull (env : Env) (s : State) (x : ℕ) : Prop :=
  s.nullBlock ≤ x ∧ x < s.nullBlock + 2 * env.pageSize

/-- The memory got from `Page_Create`, other than the null block, and not given to
`Page_Delete`. -/
def State.heldMem (env : Env) (s : State) : Set ℕ := {x | held s.trace x ∧ ¬ s.InNull env x}

structure Slot.IsList (s : State) (sl : Slot) : Prop where
  state : sl.state = .inUse
  allocator : sl.allocator = .intAlloc
  user : sl.userAddress = s.allocList
  size : sl.userSize = s.allocListSize

/-- The invariant of the slots and their regions. -/
structure Core (env : Env) (s : State) : Prop where
  slot : ∀ ⦃i : ℕ⦄ ⦃sl : Slot⦄, s.slots[i]? = some sl → sl.WellFormed env
  part : Ownership s.Owns (s.heldMem env)
  mapped : ∀ ⦃x⦄, held s.trace x → s.page env x ≠ .unmapped
  null : ∀ ⦃x⦄, s.InNull env x → held s.trace x
  null_pos : 0 < s.nullBlock
  list : ∃ (l : ℕ) (sl : Slot), s.slots[l]? = some sl ∧ sl.IsList s

/-- The slot list may be read and written. -/
def Open (env : Env) (s : State) : Prop :=
  ∀ x, s.allocList ≤ x → x < s.allocList + s.allocListSize → s.page env x = .readWrite

theorem Open.withBook {b : Book} : Open env { s with book := b } ↔ Open env s := Iff.rfl

theorem Open.putSlot : Open env (s.putSlot i sl) ↔ Open env s := by simp [Open]

namespace Core

theorem owns (h : Core env s) (hi : s.slots[i]? = some sl) (hx : sl.Owns x) : s.Owns i x :=
  ⟨sl, hi, fun he => (h.slot hi).not_owns he hx, hx⟩

theorem held_of_owns (h : Core env s) (hx : s.Owns i x) : held s.trace x :=
  ((h.part.cover x).mpr ⟨i, hx⟩).1

theorem not_null_of_owns (h : Core env s) (hx : s.Owns i x) : ¬ s.InNull env x :=
  ((h.part.cover x).mpr ⟨i, hx⟩).2

theorem eq_of_owns (h : Core env s) (hi : s.slots[i]? = some sl) (hj : s.slots[j]? = some sl')
    (hx : sl.Owns x) (hx' : sl'.Owns x) : i = j :=
  h.part.unique (h.owns hi hx) (h.owns hj hx')

theorem eq_of_user (h : Core env s) (hi : s.slots[i]? = some sl) (hj : s.slots[j]? = some sl')
    (hu : sl.userAddress = sl'.userAddress) (h0 : sl.userAddress ≠ 0) : i = j :=
  h.eq_of_owns hi hj ((h.slot hi).owns_user h0) (hu ▸ (h.slot hj).owns_user (hu ▸ h0))

theorem list_slot (h : Core env s) : ∃ (l : ℕ) (sl : Slot), s.slots[l]? = some sl ∧ sl.IsList s ∧
    sl.RegionOk env ∧ sl.internalAddress = s.allocList ∧ env.pageSize ∣ s.allocListSize ∧
    0 < s.allocListSize ∧ s.allocListSize ≤ sl.internalSize := by
  obtain ⟨l, sl, hl, hL⟩ := h.list
  have hwf := h.slot hl
  obtain ⟨-, hu, hpos, hdvd⟩ := hwf.internal hL.state (by rw [hL.allocator]; rfl)
  refine ⟨l, sl, hl, hL, hwf.region (by rw [hL.state]; nofun), by rw [← hu, hL.user],
    hL.size ▸ hdvd, hL.size ▸ hpos, ?_⟩
  rw [← hL.size]
  cases hwf.placed hL.state <;> omega

theorem allocList_pos (h : Core env s) : 0 < s.allocList := by
  obtain ⟨l, sl, -, -, hr, hi, -⟩ := h.list_slot
  rw [← hi]; exact hr.pos

theorem owns_list (h : Core env s) : ∃ (l : ℕ) (sl : Slot), s.slots[l]? = some sl ∧ sl.IsList s ∧
    ∀ x, s.allocList ≤ x → x < s.allocList + s.allocListSize → s.Owns l x := by
  obtain ⟨l, sl, hl, hL, -, hi, -, -, hle⟩ := h.list_slot
  exact ⟨l, sl, hl, hL, fun x h1 h2 => h.owns hl ⟨by omega, by omega⟩⟩

theorem list_apart {lo hi : ℕ} (h : Core env s) (hi' : s.slots[i]? = some sl) (hl : ¬ sl.IsList s)
    (hlt : lo < hi) (hin : ∀ x, lo ≤ x → x < hi → sl.Owns x) :
    hi ≤ s.allocList ∨ s.allocList + s.allocListSize ≤ lo := by
  obtain ⟨l, sl', hl', hL, hown⟩ := h.owns_list
  obtain ⟨-, -, -, -, -, -, -, hpos, -⟩ := h.list_slot
  by_contra hcon
  have := h.part.unique (hown (max lo s.allocList) (by omega) (by omega))
    (h.owns hi' (hin (max lo s.allocList) (by omega) (by omega)))
  subst this
  rw [hi'] at hl'
  cases hl'
  exact hl hL

end Core

end Duma

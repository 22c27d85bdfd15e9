import Duma.Model.Run

/-! # Effects of the primitive operations

What the updates of the state do to each part of it, and the memory that the trace says is held:
created by `Page_Create` and not yet given to `Page_Delete`.
-/

namespace Duma

variable {env : Env}

namespace Env

theorem pageSize_pos : 0 < env.pageSize := by have := env.pageSize_ge; omega

theorem pageSize_word : env.pageSize < 2 ^ 64 := by have := env.pageSize_lt; omega

theorem dvd_roundUp (n : ℕ) : env.pageSize ∣ env.roundUp n := Nat.dvd_mul_left _ _

theorem le_roundUp (n : ℕ) : n ≤ env.roundUp n := by
  have h := Nat.lt_div_mul_add (a := n + env.pageSize - 1) env.pageSize_pos
  have := env.pageSize_pos
  unfold roundUp
  omega

theorem roundUp_mono {m n : ℕ} (h : m ≤ n) : env.roundUp m ≤ env.roundUp n :=
  Nat.mul_le_mul_right _ (Nat.div_le_div_right (by omega))

theorem roundUp_of_dvd {n : ℕ} (h : env.pageSize ∣ n) : env.roundUp n = n := by
  obtain ⟨c, rfl⟩ := h
  have hP := env.pageSize_pos
  have : (env.pageSize * c + env.pageSize - 1) / env.pageSize = c := by
    rw [Nat.add_sub_assoc hP, Nat.mul_add_div hP, Nat.div_eq_of_lt (by omega), Nat.add_zero]
  rw [roundUp, this, Nat.mul_comm]

end Env

/-- The memory that the events, newest first, leave created and not deleted. -/
def held : List Event → ℕ → Prop
  | [], _ => False
  | .create a n :: t, x => a ≤ x ∧ x < a + n ∨ held t x
  | .delete a n :: t, x => held t x ∧ ¬ (a ≤ x ∧ x < a + n)
  | .state _ _ _ :: t, x => held t x
  | .shortfall _ :: t, x => held t x

namespace State

variable {s : State} {i j lo hi a n x : ℕ} {sl old : Slot} {p : Page} {f : ℕ → UInt8} {b : Book}

section PutSlot

theorem putSlot_eq (s : State) (i : ℕ) (sl : Slot) : ∃ t,
    s.putSlot i sl = { s with slots := s.slots.set i sl, trace := t } ∧
      ∀ x, held t x ↔ held s.trace x := by
  unfold putSlot
  cases h : s.slots[i]? with
  | none =>
    refine ⟨s.trace, ?_, fun x => Iff.rfl⟩
    rw [List.set_eq_of_length_le (List.getElem?_eq_none_iff.mp h)]
  | some old =>
    simp only
    split
    · exact ⟨s.trace, rfl, fun x => Iff.rfl⟩
    · exact ⟨_, rfl, fun x => Iff.rfl⟩

@[simp] theorem putSlot_slots : (s.putSlot i sl).slots = s.slots.set i sl := by
  obtain ⟨t, h, -⟩ := putSlot_eq s i sl; rw [h]

theorem putSlot_trace (h : s.slots[i]? = some old) :
    (s.putSlot i sl).trace =
      if old.state = sl.state then s.trace else .state i old.state sl.state :: s.trace := by
  unfold putSlot
  rw [h]
  simp only
  split <;> rfl

@[simp] theorem putSlot_pages : (s.putSlot i sl).pages = s.pages := by
  obtain ⟨t, h, -⟩ := putSlot_eq s i sl; rw [h]

@[simp] theorem putSlot_page : (s.putSlot i sl).page env x = s.page env x := by
  simp only [page, putSlot_pages]

@[simp] theorem putSlot_mem : (s.putSlot i sl).mem = s.mem := by
  obtain ⟨t, h, -⟩ := putSlot_eq s i sl; rw [h]

@[simp] theorem putSlot_book : (s.putSlot i sl).book = s.book := by
  obtain ⟨t, h, -⟩ := putSlot_eq s i sl; rw [h]

@[simp] theorem putSlot_cfg : (s.putSlot i sl).cfg = s.cfg := by
  obtain ⟨t, h, -⟩ := putSlot_eq s i sl; rw [h]

@[simp] theorem putSlot_tls : (s.putSlot i sl).tls = s.tls := by
  obtain ⟨t, h, -⟩ := putSlot_eq s i sl; rw [h]

@[simp] theorem putSlot_initDone : (s.putSlot i sl).initDone = s.initDone := by
  obtain ⟨t, h, -⟩ := putSlot_eq s i sl; rw [h]

@[simp] theorem putSlot_nullBlock : (s.putSlot i sl).nullBlock = s.nullBlock := by
  obtain ⟨t, h, -⟩ := putSlot_eq s i sl; rw [h]

@[simp] theorem putSlot_allocList : (s.putSlot i sl).allocList = s.allocList := by
  obtain ⟨t, h, -⟩ := putSlot_eq s i sl; rw [h]

@[simp] theorem putSlot_allocListSize : (s.putSlot i sl).allocListSize = s.allocListSize := by
  obtain ⟨t, h, -⟩ := putSlot_eq s i sl; rw [h]

@[simp] theorem held_putSlot : held (s.putSlot i sl).trace x ↔ held s.trace x := by
  obtain ⟨t, h, ht⟩ := putSlot_eq s i sl
  rw [h]
  exact ht x

theorem getElem?_putSlot {v : Slot} (h : s.slots[i]? = some old) :
    (s.putSlot i v).slots[j]? = if i = j then some v else s.slots[j]? := by
  have hi : i < s.slots.length := (List.getElem?_eq_some_iff.mp h).1
  rw [putSlot_slots, List.getElem?_set]
  simp [hi]

theorem putSlot_self (h : s.slots[i]? = some sl) : s.putSlot i sl = s := by
  obtain ⟨hlt, rfl⟩ := List.getElem?_eq_some_iff.mp h
  unfold putSlot
  rw [h]
  simp

theorem putSlot_putSlot {v : Slot} (h : s.slots[i]? = some old) (hs : old.state = v.state) :
    (s.putSlot i v).putSlot i sl = s.putSlot i sl := by
  have hi : i < s.slots.length := (List.getElem?_eq_some_iff.mp h).1
  have h1 : s.putSlot i v = { s with slots := s.slots.set i v } := by
    unfold putSlot; rw [h]; simp [hs]
  rw [h1]
  unfold putSlot
  rw [h]
  simp only [List.getElem?_set_self hi, List.set_set, hs]

theorem putSlot_putSlot_of_state {sl' : Slot} (hs : sl'.state = sl.state) :
    (s.putSlot i sl').putSlot i sl = s.putSlot i sl := by
  cases h : s.slots[i]? with
  | none =>
    have h1 : ∀ sl, s.putSlot i sl = s := fun sl => by unfold putSlot; rw [h]
    rw [h1, h1]
  | some old =>
    have h1 := getElem?_putSlot (j := i) (v := sl') h
    rw [if_pos rfl] at h1
    unfold putSlot at h1 ⊢
    rw [h] at h1 ⊢
    simp only at h1 ⊢
    rw [h1]
    simp only [hs, if_true]
    split <;> simp [log, List.set_set]

theorem putSlot_setPages : (s.putSlot i sl).setPages env lo hi p =
    (s.setPages env lo hi p).putSlot i sl := by
  unfold putSlot setPages
  cases s.slots[i]? with
  | none => rfl
  | some old =>
    simp only
    split <;> rfl

theorem putSlot_withBook (b : Book) :
    ({ s with book := b } : State).putSlot i sl = { s.putSlot i sl with book := b } := by
  unfold putSlot
  cases s.slots[i]? with
  | none => rfl
  | some old =>
    simp only
    split <;> rfl

end PutSlot

section Pages

variable {lo hi : ℕ}

theorem setPages_page (hlo : env.pageSize ∣ lo) (hhi : env.pageSize ∣ hi) :
    (s.setPages env lo hi p).page env x = if lo ≤ x ∧ x < hi then p else s.page env x :=
  PageMap.get_fill env.pageSize_pos hlo hhi

theorem created_page (ha : env.pageSize ∣ a) :
    (s.created env a n).page env x =
      if a ≤ x ∧ x < a + env.roundUp n then .readWrite else s.page env x :=
  setPages_page ha (Nat.dvd_add ha (Env.dvd_roundUp n))

theorem deleted_page (ha : env.pageSize ∣ a) :
    (s.deleted env a n p).page env x =
      if a ≤ x ∧ x < a + env.roundUp n then p else s.page env x :=
  setPages_page ha (Nat.dvd_add ha (Env.dvd_roundUp n))

theorem accessible_iff :
    s.accessible env lo hi = true ↔ ∀ x, lo ≤ x → x < hi → s.page env x = .readWrite := by
  simp only [accessible, page, PageMap.all_iff env.pageSize_pos, beq_iff_eq]

end Pages

theorem store_of_le (h : hi ≤ lo) : s.store lo hi f = s := by
  have : (fun x => if lo ≤ x ∧ x < hi then f x else s.mem x) = s.mem := by
    funext x; rw [if_neg (by omega)]
  rw [store, this]

end State

end Duma

import Mathlib.Algebra.Order.Ring.Nat
import Mathlib.Data.Nat.Basic

/-! # Page maps

A page map gives every page of an address space a value. Pages have a common size `P`; the
value at an address is the value of its page, and writing a page-aligned range changes the
value at the addresses of that range and nowhere else.
-/

structure PageMap (V : Type*) where
  entry : ℕ → V

namespace PageMap

variable {V : Type*} (P : ℕ)

def get (t : PageMap V) (x : ℕ) : V := t.entry (x / P)

def fill (t : PageMap V) (lo hi : ℕ) (v : V) : PageMap V :=
  ⟨fun q => if lo / P ≤ q ∧ q < hi / P then v else t.entry q⟩

/-- Test every page that has an address in `[lo, hi)`. -/
def all (t : PageMap V) (lo hi : ℕ) (p : V → Bool) : Bool :=
  (List.range (if hi ≤ lo then 0 else (hi - 1) / P - lo / P + 1)).all
    fun k => p (t.entry (lo / P + k))

variable {P} {t : PageMap V} {lo hi x : ℕ} {v : V}

theorem le_div_iff (hP : 0 < P) (h : P ∣ lo) : lo / P ≤ x / P ↔ lo ≤ x := by
  obtain ⟨c, rfl⟩ := h
  rw [Nat.mul_div_cancel_left c hP, Nat.le_div_iff_mul_le hP, Nat.mul_comm]

theorem div_lt_iff (hP : 0 < P) (h : P ∣ hi) : x / P < hi / P ↔ x < hi := by
  rw [← not_le, ← not_le, not_iff_not]
  exact le_div_iff hP h

theorem get_fill (hP : 0 < P) (hlo : P ∣ lo) (hhi : P ∣ hi) :
    (t.fill P lo hi v).get P x = if lo ≤ x ∧ x < hi then v else t.get P x := by
  simp only [get, fill, le_div_iff hP hlo, div_lt_iff hP hhi]

theorem all_iff (hP : 0 < P) (p : V → Bool) :
    t.all P lo hi p = true ↔ ∀ x, lo ≤ x → x < hi → p (t.get P x) = true := by
  unfold all
  rw [List.all_eq_true]
  split
  · next h => simp only [List.range_zero, List.not_mem_nil, false_imp_iff, implies_true, true_iff]
              intro x h1 h2; omega
  · next h =>
    constructor
    · intro hall x h1 h2
      have hx : lo / P ≤ x / P := Nat.div_le_div_right h1
      have hx' : x / P ≤ (hi - 1) / P := Nat.div_le_div_right (by omega)
      have := hall (x / P - lo / P) (List.mem_range.mpr (by omega))
      rwa [Nat.add_sub_cancel' hx] at this
    · intro hall k hk
      rw [List.mem_range] at hk
      have hle : lo / P ≤ (hi - 1) / P := Nat.div_le_div_right (by omega)
      have hq : max lo ((lo / P + k) * P) / P = lo / P + k := by
        rcases Nat.eq_zero_or_pos k with rfl | hk0
        · rw [Nat.add_zero, Nat.max_eq_left (Nat.div_mul_le_self lo P)]
        · have : lo ≤ (lo / P + k) * P := by
            have h1 := Nat.lt_div_mul_add (a := lo) hP
            have h2 : P ≤ k * P := Nat.le_mul_of_pos_left P hk0
            rw [Nat.add_mul]; omega
          rw [Nat.max_eq_right this, Nat.mul_div_cancel _ hP]
      have hlt : max lo ((lo / P + k) * P) < hi := by
        have h1 : (lo / P + k) * P ≤ (hi - 1) / P * P := Nat.mul_le_mul_right P (by omega)
        have h2 := Nat.div_mul_le_self (hi - 1) P
        omega
      have := hall _ (Nat.le_max_left lo _) hlt
      rwa [get, hq] at this

end PageMap

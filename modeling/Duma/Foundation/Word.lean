import Mathlib.Data.Nat.Bitwise
import Mathlib.Tactic.Positivity

/-! # Unsigned machine words

Words are natural numbers below `2 ^ 64`; addition, subtraction and multiplication wrap.
Masking with the complement of `a - 1` rounds down to a multiple of `a` when `a` is a power
of two, and clearing low set bits one by one ends in the leading power of two.
-/

namespace Word

def add (x y : ℕ) : ℕ := (x + y) % 2 ^ 64

def sub (x y : ℕ) : ℕ := (x + (2 ^ 64 - y % 2 ^ 64)) % 2 ^ 64

def mul (x y : ℕ) : ℕ := (x * y) % 2 ^ 64

def not (x : ℕ) : ℕ := 2 ^ 64 - 1 - x % 2 ^ 64

/-- `x & ~(a - 1)`. -/
def clearLow (x a : ℕ) : ℕ := x &&& not (sub a 1)

/-- The value of a signed number converted to an unsigned word. -/
def ofInt (x : ℤ) : ℕ := (x % (2 ^ 64 : ℤ)).toNat

def toInt (x : ℤ) : ℤ := Int.bmod x (2 ^ 64)

theorem add_eq {x y : ℕ} (h : x + y < 2 ^ 64) : add x y = x + y := Nat.mod_eq_of_lt h

theorem add_lt (x y : ℕ) : add x y < 2 ^ 64 := Nat.mod_lt _ (by decide)

theorem sub_lt (x y : ℕ) : sub x y < 2 ^ 64 := Nat.mod_lt _ (by decide)

theorem sub_eq {x y : ℕ} (hx : x < 2 ^ 64) (h : y ≤ x) : sub x y = x - y := by
  unfold sub; omega

theorem sub_eq_wrap {x y : ℕ} (hy : y < 2 ^ 64) (h : x < y) : sub x y = x + 2 ^ 64 - y := by
  unfold sub; omega

theorem sub_sub_add_eq {w x y z : ℕ} (hy : y < 2 ^ 64) (h : y + z ≤ w + x)
    (hlt : w + x - y - z < 2 ^ 64) : sub (sub (add w x) y) z = w + x - y - z := by
  unfold sub add; omega

theorem sub_add_add_eq {x y z : ℕ} (h : 1 ≤ x + y + z) :
    sub (add (add x y) z) 1 = (x + y + z - 1) % 2 ^ 64 := by
  unfold sub add; omega

theorem mul_eq {x y : ℕ} (h : x * y < 2 ^ 64) : mul x y = x * y := Nat.mod_eq_of_lt h

theorem not_eq {x : ℕ} (h : x < 2 ^ 64) : not x = 2 ^ 64 - 1 - x := by
  unfold not; rw [Nat.mod_eq_of_lt h]

theorem clearLow_two_pow {x k : ℕ} (hx : x < 2 ^ 64) (hk : k < 64) :
    clearLow x (2 ^ k) = x / 2 ^ k * 2 ^ k := by
  have hp : 2 ^ k < 2 ^ 64 := Nat.pow_lt_pow_right (by decide) hk
  have h1 : 1 ≤ 2 ^ k := Nat.one_le_two_pow
  rw [clearLow, sub_eq hp h1, not_eq (by omega)]
  apply Nat.eq_of_testBit_eq
  intro i
  have hm : (2 ^ 64 - 1 - (2 ^ k - 1)).testBit i = (decide (i < 64) && !decide (i < k)) := by
    have := Nat.testBit_two_pow_sub_succ (x := 2 ^ k - 1) (n := 64) (by omega) i
    rw [Nat.testBit_two_pow_sub_one] at this
    rw [← this]
    congr 1
    omega
  rw [Nat.testBit_and, hm, Nat.mul_comm, Nat.testBit_two_pow_mul, Nat.testBit_div_two_pow]
  by_cases hik : i < k
  · simp [hik]
  · have hki : k ≤ i := by omega
    simp only [hik, decide_false, Bool.not_false, Bool.and_true, ge_iff_le, hki, decide_true,
      Bool.true_and, Nat.sub_add_cancel hki]
    by_cases hi : i < 64
    · simp [hi]
    · have : x.testBit i = false := Nat.testBit_lt_two_pow
        (lt_of_lt_of_le hx (Nat.pow_le_pow_right (by decide) (by omega)))
      simp [this]

section TwoPow

variable {x a : ℕ}

theorem two_pow_exp_lt {k : ℕ} (h : 2 ^ k < 2 ^ 64) : k < 64 :=
  (Nat.pow_lt_pow_iff_right (by decide)).mp h

theorem clearLow_eq (hx : x < 2 ^ 64) (ha : a < 2 ^ 64) (h2 : a.isPowerOfTwo) :
    clearLow x a = x / a * a := by
  obtain ⟨k, rfl⟩ := h2
  exact clearLow_two_pow hx (two_pow_exp_lt ha)

theorem clearLow_le (hx : x < 2 ^ 64) (ha : a < 2 ^ 64) (h2 : a.isPowerOfTwo) : clearLow x a ≤ x := by
  rw [clearLow_eq hx ha h2]
  exact Nat.div_mul_le_self x a

theorem lt_clearLow_add (hx : x < 2 ^ 64) (ha : a < 2 ^ 64) (h2 : a.isPowerOfTwo) :
    x < clearLow x a + a := by
  rw [clearLow_eq hx ha h2]
  exact Nat.lt_div_mul_add (Nat.pos_of_isPowerOfTwo h2)

theorem dvd_clearLow (hx : x < 2 ^ 64) (ha : a < 2 ^ 64) (h2 : a.isPowerOfTwo) : a ∣ clearLow x a := by
  rw [clearLow_eq hx ha h2]
  exact Nat.dvd_mul_left a (x / a)

theorem two_pow_dvd {a b : ℕ} (ha : a.isPowerOfTwo) (hb : b.isPowerOfTwo) (h : a ≤ b) : a ∣ b := by
  obtain ⟨k, rfl⟩ := ha
  obtain ⟨m, rfl⟩ := hb
  exact Nat.pow_dvd_pow 2 ((Nat.pow_le_pow_iff_right (by decide)).mp h)

theorem le_clearLow {y : ℕ} (hx : x < 2 ^ 64) (ha : a < 2 ^ 64) (h2 : a.isPowerOfTwo) (hy : a ∣ y)
    (h : y ≤ x) : y ≤ clearLow x a := by
  rw [clearLow_eq hx ha h2]
  obtain ⟨c, rfl⟩ := hy
  rw [Nat.mul_comm]
  exact Nat.mul_le_mul_right a ((Nat.le_div_iff_mul_le (Nat.pos_of_isPowerOfTwo h2)).mpr
    (by rwa [Nat.mul_comm]))

end TwoPow

/-- Clear the lowest set bit until one is left; `n` bounds the number of rounds. -/
def leadingBit : ℕ → ℕ → ℕ
  | 0, a => a
  | n + 1, a => if a &&& (a - 1) = 0 then a else leadingBit n (a &&& (a - 1))

theorem two_pow_succ_dvd_and_pred {a j : ℕ} (h : 2 ^ j ∣ a) : 2 ^ (j + 1) ∣ a &&& (a - 1) := by
  obtain ⟨c, rfl⟩ := h
  rcases Nat.eq_zero_or_pos c with rfl | hc
  · simp
  have hp : 0 < 2 ^ j := by positivity
  have hsub : 2 ^ j * c - 1 = 2 ^ j * (c - 1) + (2 ^ j - 1) := by
    obtain ⟨d, rfl⟩ : ∃ d, c = d + 1 := ⟨c - 1, by omega⟩
    rw [Nat.add_sub_cancel, Nat.mul_succ]
    omega
  apply Nat.dvd_of_mod_eq_zero
  apply Nat.eq_of_testBit_eq
  intro i
  rw [Nat.testBit_mod_two_pow, Nat.zero_testBit, Nat.testBit_and, hsub,
    Nat.testBit_two_pow_mul_add _ (by omega), Nat.testBit_two_pow_mul]
  rcases lt_trichotomy i j with hij | rfl | hij
  · simp [Nat.not_le.mpr hij]
  · have : (c.testBit 0 && (c - 1).testBit 0) = false := by
      simp only [Nat.testBit_zero]
      rcases Nat.mod_two_eq_zero_or_one c with h | h
      · simp [h]
      · simp [show (c - 1) % 2 = 0 by omega]
    simpa using this
  · simp [show ¬ i < j + 1 by omega]

theorem leadingBit_isPowerOfTwo {n j a : ℕ} (hn : n + j = 64) (hj : 2 ^ j ∣ a) (h0 : a ≠ 0)
    (ha : a < 2 ^ 64) : (leadingBit n a).isPowerOfTwo := by
  induction n generalizing j a with
  | zero =>
    obtain rfl : j = 64 := by omega
    exact absurd (Nat.le_of_dvd (Nat.pos_of_ne_zero h0) hj) (by omega)
  | succ n ih =>
    rw [leadingBit]
    split
    · next hz => exact (Nat.and_sub_one_eq_zero_iff_isPowerOfTwo h0).mp hz
    · next hz =>
      exact ih (j := j + 1) (by omega) (two_pow_succ_dvd_and_pred hj) hz
        (lt_of_le_of_lt Nat.and_le_left ha)

theorem leadingBit_le (n a : ℕ) : leadingBit n a ≤ a := by
  induction n generalizing a with
  | zero => rfl
  | succ n ih =>
    rw [leadingBit]
    split
    · rfl
    · exact (ih _).trans Nat.and_le_left

end Word

import Mathlib.Data.Nat.Digits.Lemmas

/-! # Positional numerals

A numeral is the list of the digits of a number in some base, the most significant first, without
leading zeros; zero has the digit 0.
-/

namespace Numeral

variable {b n k d : ℕ} {ds : List ℕ}

/-- The digits of `n` in base `b`. -/
def numeral (b n : ℕ) : List ℕ := if n = 0 then [0] else (Nat.digits b n).reverse

/-- The number that a list of digits stands for. -/
def value (b : ℕ) (ds : List ℕ) : ℕ := ds.foldl (fun v d => b * v + d) 0

/-- There is a digit, and the first is no superfluous zero. -/
def Canonical (b : ℕ) (ds : List ℕ) : Prop :=
  ds ≠ [] ∧ (∀ d ∈ ds, d < b) ∧ (ds.head? = some 0 → ds = [0])

theorem value_append_single : value b (ds ++ [d]) = b * value b ds + d := by
  simp [value]

theorem value_eq_ofDigits (ds : List ℕ) : value b ds = Nat.ofDigits b ds.reverse := by
  induction ds using List.reverseRecOn with
  | nil => rfl
  | append_singleton ds d ih =>
    rw [value_append_single, ih, List.reverse_append, List.reverse_singleton,
      List.singleton_append, Nat.ofDigits_cons, add_comm]

theorem numeral_of_lt (h : n < b) : numeral b n = [n] := by
  unfold numeral
  split
  · next h0 => rw [h0]
  · next h0 => rw [Nat.digits_of_lt b n h0 h, List.reverse_singleton]

theorem numeral_of_le (hb : 1 < b) (h : b ≤ n) : numeral b n = numeral b (n / b) ++ [n % b] := by
  have hn : n ≠ 0 := by omega
  have hq : n / b ≠ 0 := (Nat.div_pos h (by omega)).ne'
  rw [numeral, if_neg hn, numeral, if_neg hq, Nat.digits_def' hb (Nat.pos_of_ne_zero hn),
    List.reverse_cons]

theorem numeral_ne_nil : numeral b n ≠ [] := by
  unfold numeral
  split
  · exact List.cons_ne_nil _ _
  · next h => exact List.reverse_ne_nil_iff.mpr (Nat.digits_ne_nil_iff_ne_zero.mpr h)

theorem value_numeral : value b (numeral b n) = n := by
  unfold numeral
  split
  · next h => simp [h, value]
  · rw [value_eq_ofDigits, List.reverse_reverse, Nat.ofDigits_digits]

theorem lt_of_mem_numeral (hb : 1 < b) (hd : d ∈ numeral b n) : d < b := by
  unfold numeral at hd
  split at hd
  · rw [List.mem_singleton.mp hd]
    omega
  · exact Nat.digits_lt_base hb (List.mem_reverse.mp hd)

theorem numeral_canonical (hb : 1 < b) (n : ℕ) : Canonical b (numeral b n) := by
  refine ⟨numeral_ne_nil, fun d => lt_of_mem_numeral hb, fun h => ?_⟩
  unfold numeral at h ⊢
  split
  · rfl
  · next hn =>
    rw [if_neg hn, List.head?_reverse, List.getLast?_eq_getLast_of_ne_nil
      (Nat.digits_ne_nil_iff_ne_zero.mpr hn)] at h
    exact absurd (Option.some.inj h) (Nat.getLast_digit_ne_zero b hn)

theorem length_numeral_pos : 0 < (numeral b n).length := List.length_pos_iff.mpr numeral_ne_nil

theorem length_numeral_le_iff (hb : 1 < b) (hk : 0 < k) : (numeral b n).length ≤ k ↔ n < b ^ k := by
  unfold numeral
  split
  · next h =>
    subst h
    exact iff_of_true hk (by positivity)
  · rw [List.length_reverse, Nat.digits_length_le_iff hb]

end Numeral

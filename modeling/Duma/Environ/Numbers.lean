import Duma.Foundation.Scan
import Duma.Model.Environ

/-! # Numbers in the environment

The decimal text of a number is read back, whatever white space stands before it and whatever
follows its digits.
-/

namespace Duma

variable {n : ℤ} {k : ℕ} {space rest text : List UInt8}

def digits (k : ℕ) : List UInt8 := (Numeral.numeral 10 k).map fun d => UInt8.ofNat (48 + d)

def decimal (n : ℤ) : List UInt8 :=
  if n < 0 then Print.chr '-' :: digits n.natAbs else digits n.natAbs

/-- What a `long` can represent of a number. -/
def clamp (n : ℤ) : ℤ := max (-2 ^ 63) (min n (2 ^ 63 - 1))

theorem clamp_eq (h1 : -2 ^ 63 ≤ n) (h2 : n < 2 ^ 63) : clamp n = n := by
  unfold clamp
  omega

section Digits

theorem digit_lt {d : ℕ} (h : d ∈ Numeral.numeral 10 k) : d < 10 :=
  Numeral.lt_of_mem_numeral (by decide) h

theorem toNat_digit {d : ℕ} (h : d < 10) : (UInt8.ofNat (48 + d)).toNat = 48 + d := by
  simp only [UInt8.toNat_ofNat']
  omega

theorem isdigit_iff {c : UInt8} : isdigit c = true ↔ 48 ≤ c.toNat ∧ c.toNat ≤ 57 := by
  simp [isdigit, UInt8.le_iff_toNat_le]

theorem isdigit_of_mem_digits {c : UInt8} (h : c ∈ digits k) : isdigit c = true := by
  obtain ⟨d, hd, rfl⟩ := List.mem_map.mp h
  have hlt := digit_lt hd
  rw [isdigit_iff, toNat_digit hlt]
  omega

theorem value_digits :
    Numeral.value 10 ((digits k).map fun c => c.toNat - 48) = k := by
  have hmap : (digits k).map (fun c => c.toNat - 48) = Numeral.numeral 10 k := by
    rw [digits, List.map_map]
    refine (List.map_congr_left fun d hd => ?_).trans (List.map_id _)
    rw [Function.comp_apply, toNat_digit (digit_lt hd), id_eq, Nat.add_sub_cancel_left]
  rw [hmap, Numeral.value_numeral]

theorem digits_ne_nil : digits k ≠ [] := by
  simp [digits, Numeral.numeral_ne_nil]

end Digits

section Strtol

theorem isspace_false {c : UInt8} (h : 33 ≤ c.toNat) : isspace c = false := by
  simp only [isspace, Bool.or_eq_false_iff, Bool.and_eq_false_iff, beq_eq_false_iff_ne, ne_eq,
    decide_eq_false_iff_not, UInt8.le_iff_toNat_le]
  constructor
  · rintro rfl
    revert h
    decide
  · right
    change ¬ c.toNat ≤ 13
    omega

theorem signedNumber_of_digit {c : UInt8} (h : isdigit c = true) :
    signedNumber (c :: text) = unsignedNumber (c :: text) := by
  unfold signedNumber
  split
  · next heq =>
    obtain ⟨rfl, -⟩ := List.cons.inj heq
    exact absurd h (by decide)
  · next heq =>
    obtain ⟨rfl, -⟩ := List.cons.inj heq
    exact absurd h (by decide)
  · rfl

theorem unsignedNumber_digits (hr : ∀ c ∈ rest.head?, isdigit c = false) :
    unsignedNumber (digits k ++ rest) = k := by
  rw [unsignedNumber, Scan.takeWhile_append (fun c => isdigit_of_mem_digits) hr, value_digits]

theorem signedNumber_decimal (hr : ∀ c ∈ rest.head?, isdigit c = false) :
    signedNumber (decimal n ++ rest) = n := by
  unfold decimal
  split
  · next hn =>
    change -unsignedNumber (digits n.natAbs ++ rest) = n
    rw [unsignedNumber_digits hr]
    omega
  · next hn =>
    obtain ⟨c, cs, hc⟩ := List.exists_cons_of_ne_nil (digits_ne_nil (k := n.natAbs))
    have hdigit : isdigit c = true := isdigit_of_mem_digits (k := n.natAbs) (by rw [hc]; simp)
    have hnum := unsignedNumber_digits (k := n.natAbs) hr
    rw [hc, List.cons_append] at hnum ⊢
    rw [signedNumber_of_digit hdigit, hnum]
    omega

theorem isspace_decimal : ∀ c ∈ (decimal n ++ rest).head?, isspace c = false := by
  intro c hc
  have hmem : c = Print.chr '-' ∨ c ∈ digits n.natAbs := by
    obtain ⟨d, ds, hd⟩ := List.exists_cons_of_ne_nil (digits_ne_nil (k := n.natAbs))
    unfold decimal at hc
    split at hc
    · exact Or.inl (Option.some.inj hc).symm
    · rw [hd] at hc ⊢
      exact Or.inr (Option.some.inj hc ▸ List.mem_cons_self)
  rcases hmem with rfl | hmem
  · exact isspace_false (by decide)
  · have := isdigit_iff.mp (isdigit_of_mem_digits hmem)
    exact isspace_false (by omega)

/-- A decimal number is read as what a `long` can represent of it. -/
theorem strtol_decimal (hs : ∀ c ∈ space, isspace c = true)
    (hr : ∀ c ∈ rest.head?, isdigit c = false) :
    strtol (space ++ (decimal n ++ rest)) = clamp n := by
  rw [strtol, Scan.dropWhile_append hs isspace_decimal, signedNumber_decimal hr, clamp]

/-- The text begins with a number, behind white space at most. -/
def Denotes (s : List UInt8) (n : ℤ) : Prop :=
  ∃ space rest, s = space ++ (decimal n ++ rest) ∧ (∀ c ∈ space, isspace c = true) ∧
    ∀ c ∈ rest.head?, isdigit c = false

theorem denotes_decimal : Denotes (decimal n) n := ⟨[], [], by simp, by simp, by simp⟩

theorem Denotes.atol (h : Denotes text n) (h1 : -2 ^ 63 ≤ n) (h2 : n < 2 ^ 63) :
    atol text = n := by
  obtain ⟨space, rest, rfl, hs, hr⟩ := h
  exact (strtol_decimal hs hr).trans (clamp_eq h1 h2)

theorem Denotes.atoi (h : Denotes text n) (h1 : -2 ^ 31 ≤ n) (h2 : n < 2 ^ 31) :
    atoi text = n := by
  have hl : strtol text = n := h.atol (by omega) (by omega)
  rw [Duma.atoi, hl]
  exact Int.bmod_eq_of_le (by omega) (by omega)

theorem strtol_range (s : List UInt8) : -2 ^ 63 ≤ strtol s ∧ strtol s < 2 ^ 63 := by
  unfold strtol
  omega

theorem atoi_range (s : List UInt8) : -2 ^ 31 ≤ atoi s ∧ atoi s < 2 ^ 31 := by
  constructor
  · exact Int.le_bmod (by decide)
  · exact Int.bmod_lt (by decide)

end Strtol

end Duma

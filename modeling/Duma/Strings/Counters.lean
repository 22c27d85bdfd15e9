import Duma.Strings.Overlap
import Mathlib.Tactic.Ring

/-! # Copy loops with short counters

Four of the copy loops count in 32 bits up to a 64-bit length. They end where the length is one that
the counter gets to, and otherwise start again at the first byte without end.
-/

namespace Duma.Strings

variable {m m' : Bytes} {d s n k len fuel : ℕ} {goes : BitVec 32 → Bool} {offsets : List ℕ}

/-- A loop ends with every offset written once and in order, and has copied the bytes. -/
def CopiesAll (loop : ℕ → BitVec 32 → Bytes × List ℕ → Option (Bytes × List ℕ)) (m : Bytes)
    (d s len : ℕ) : Prop :=
  ∃ fuel, loop fuel 0 (m, []) = some (copyUp m d s len, List.range len)

theorem copyFrom_ends (hgoes : ∀ i, goes i = true ↔ i.toNat < k + n) (h : k + n < 2 ^ 32) :
    copyFrom goes d s (n + 1) (BitVec.ofNat 32 k) (m, offsets) =
      some (copyUp m (d + k) (s + k) n, offsets ++ List.range' k n) := by
  have hk : (BitVec.ofNat 32 k).toNat = k := by
    rw [BitVec.toNat_ofNat, Nat.mod_eq_of_lt (by omega)]
  induction n generalizing k m offsets with
  | zero =>
    rw [copyFrom, if_neg (by rw [hgoes, hk]; omega), List.range'_zero, List.append_nil]
    rfl
  | succ n ih =>
    have hn : BitVec.ofNat 32 k + 1 = BitVec.ofNat 32 (k + 1) := (BitVec.ofNat_add k 1).symm
    rw [copyFrom, if_pos ((hgoes _).mpr (by rw [hk]; omega)), hk, hn,
      ih (by rwa [Nat.add_right_comm]) (by omega)
        (by rw [BitVec.toNat_ofNat, Nat.mod_eq_of_lt (by omega)])]
    rw [copyUp, List.range'_succ, List.append_assoc, List.singleton_append, Nat.add_assoc, Nat.add_assoc]

theorem copyFrom_runs (hgoes : ∀ i, goes i = true) (i : BitVec 32) (b : Bytes × List ℕ) :
    copyFrom goes d s fuel i b = none := by
  induction fuel generalizing i b with
  | zero => rfl
  | succ fuel ih =>
    rw [copyFrom, if_pos (hgoes i)]
    exact ih _ _

theorem copiesAll_iff (hgoes : ∀ i, goes i = true ↔ i.toNat < len) :
    CopiesAll (copyFrom goes d s) m d s len ↔ len < 2 ^ 32 := by
  constructor
  · rintro ⟨fuel, h⟩
    by_contra hlen
    have hall : ∀ i, goes i = true := fun i => (hgoes i).mpr (i.isLt.trans_le (not_lt.mp hlen))
    rw [copyFrom_runs hall] at h
    cases h
  · intro h
    have he := @copyFrom_ends m d s len 0 goes [] (by rwa [Nat.zero_add]) (by rwa [Nat.zero_add])
    refine ⟨len + 1, he.trans ?_⟩
    rw [List.range_eq_range', Nat.add_zero, Nat.add_zero, List.nil_append]

theorem goes_lt (size : BitVec 64) (i : BitVec 32) :
    decide (i.setWidth 64 < size) = true ↔ i.toNat < size.toNat := by
  rw [decide_eq_true_iff, BitVec.lt_def, BitVec.toNat_setWidth,
    Nat.mod_eq_of_lt (i.isLt.trans (by decide))]

theorem goes_le (size : BitVec 64) (i : BitVec 32) :
    decide (i.setWidth 64 ≤ size) = true ↔ i.toNat < size.toNat + 1 := by
  rw [decide_eq_true_iff, BitVec.le_def, BitVec.toNat_setWidth,
    Nat.mod_eq_of_lt (i.isLt.trans (by decide)), Nat.lt_succ_iff]

/-- The four loops copy all their bytes if these are less than 2 ^ 32, and only then. -/
theorem copies_all_iff (m : Bytes) (d s destlen : ℕ) (size : BitVec 64) :
    (CopiesAll (memcpyLoop d s size) m d s size.toNat ↔ size.toNat < 2 ^ 32) ∧
      (CopiesAll (strdupLoop d s size) m d s (size.toNat + 1) ↔ size.toNat + 1 < 2 ^ 32) ∧
      (CopiesAll (strcatLoop d s destlen size) m (d + destlen) s size.toNat ↔
        size.toNat < 2 ^ 32) ∧
      (CopiesAll (strncatLoop d s destlen size) m (d + destlen) s size.toNat ↔
        size.toNat < 2 ^ 32) :=
  ⟨copiesAll_iff (goes_lt size), copiesAll_iff (goes_le size), copiesAll_iff (goes_lt size),
    copiesAll_iff (goes_lt size)⟩

/-- A copy of 4 GiB does not end. -/
theorem copies_all_fails : ¬ ∀ (m : Bytes) (d s : ℕ) (size : BitVec 64),
    CopiesAll (memcpyLoop d s size) m d s size.toNat := by
  intro h
  have := (copiesAll_iff (goes_lt (2 ^ 32))).mp (h (fun _ => 0) (2 ^ 33) (2 ^ 34) (2 ^ 32))
  exact absurd this (by decide)

section Calls

variable {dest src size e : ℕ} {overlap : Bool}

theorem memcpy_returns_iff {size : BitVec 64} (h : ¬ Guard overlap dest src size.toNat) :
    (∃ p m', memcpy overlap dest src size.toNat m = .ok p m') ↔
      CopiesAll (memcpyLoop dest src size) m dest src size.toNat := by
  rw [memcpyLoop, copiesAll_iff (goes_lt size)]
  by_cases hn : size.toNat < 2 ^ 32
  · exact iff_of_true ⟨_, _, memcpy_eq h hn⟩ hn
  · refine iff_of_false ?_ hn
    rintro ⟨p, m', hr⟩
    unfold memcpy at hr
    unfold Guard at h
    rw [if_neg h, if_pos (not_lt.mp hn)] at hr
    cases hr

theorem strcat_returns_iff (hd : StringAt m dest e) (he : e < 2 ^ 64) (hs : StringAt m src n)
    (hn : n + 1 < 2 ^ 64) (h : ¬ (src < dest + e ∧ dest + e < src + (n + 1))) :
    (∃ p m', strcat dest src m = .ok p m') ↔
      CopiesAll (strcatLoop dest src e (BitVec.ofNat 64 (n + 1))) m (dest + e) src (n + 1) := by
  have hgoes := goes_lt (BitVec.ofNat 64 (n + 1))
  rw [BitVec.toNat_ofNat, Nat.mod_eq_of_lt hn] at hgoes
  rw [strcatLoop, copiesAll_iff hgoes,
    strcat_eq hd he hs (by omega), if_neg h]
  by_cases hlt : n + 1 < 2 ^ 32
  · rw [if_neg (not_le.mpr hlt)]
    exact iff_of_true ⟨_, _, rfl⟩ hlt
  · rw [if_pos (not_lt.mp hlt)]
    exact iff_of_false nofun hlt

theorem strncat_returns_iff (h0 : size ≠ 0) (hd : StringAt m dest e) (he : e < 2 ^ 64)
    (hs : PrefixAt m src size n) (hn : n < 2 ^ 64)
    (h : ¬ (src < dest + e ∧ dest + e < src + n + 1)) :
    (∃ p m', strncat dest src size m = .ok p m') ↔
      CopiesAll (strncatLoop dest src e (BitVec.ofNat 64 n)) m (dest + e) src n := by
  have hgoes := goes_lt (BitVec.ofNat 64 n)
  rw [BitVec.toNat_ofNat, Nat.mod_eq_of_lt hn] at hgoes
  rw [strncatLoop, copiesAll_iff hgoes, strncat_eq h0 hd he hs, if_neg h]
  by_cases hlt : n < 2 ^ 32
  · rw [if_neg (not_le.mpr hlt)]
    exact iff_of_true ⟨_, _, rfl⟩ hlt
  · rw [if_pos (not_lt.mp hlt)]
    exact iff_of_false nofun hlt

end Calls

end Duma.Strings

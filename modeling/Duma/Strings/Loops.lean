import Duma.Model.Strings
import Mathlib.Data.Nat.Basic

/-! # The loops of the copy functions

Where no byte is overwritten before it is read, a loop in place leaves what a copy from the
memory at its start would leave.
-/

namespace Duma.Strings

variable {m m' : Bytes} {d s n k size src x len : ℕ} {c : UInt8}

theorem put_same : m.put d c d = c := if_pos rfl

theorem put_other (h : x ≠ d) : m.put d c x = m x := if_neg h

def Bytes.copied (m : Bytes) (d s n : ℕ) : Bytes :=
  fun x => if d ≤ x ∧ x < d + n then m (s + (x - d)) else m x

theorem copied_inside (h : x < n) : m.copied d s n (d + x) = m (s + x) := by
  unfold Bytes.copied
  rw [if_pos ⟨by omega, by omega⟩, Nat.add_sub_cancel_left]

theorem copied_outside (h : ¬ (d ≤ x ∧ x < d + n)) : m.copied d s n x = m x := if_neg h

section Copies

theorem copied_zero : m.copied d s 0 = m := by
  funext x
  exact copied_outside (by omega)

theorem copied_up (h : d ≤ s ∨ s + (n + 1) ≤ d) :
    (m.put d (m s)).copied (d + 1) (s + 1) n = m.copied d s (n + 1) := by
  funext x
  unfold Bytes.copied
  rcases Nat.lt_trichotomy x d with hx | rfl | hx
  · rw [if_neg (by omega), if_neg (by omega), put_other (by omega)]
  · rw [if_neg (by omega), if_pos ⟨le_rfl, by omega⟩, put_same, Nat.sub_self, Nat.add_zero]
  · by_cases hlt : x < d + (n + 1)
    · rw [if_pos ⟨by omega, by omega⟩, if_pos ⟨by omega, hlt⟩, put_other (by omega)]
      congr 1
      omega
    · rw [if_neg (by omega), if_neg (by omega), put_other (by omega)]

theorem copied_down (h : s ≤ d ∨ d + (n + 1) ≤ s) :
    (m.put (d + n) (m (s + n))).copied d s n = m.copied d s (n + 1) := by
  funext x
  unfold Bytes.copied
  by_cases hx : d ≤ x ∧ x < d + n
  · rw [if_pos hx, if_pos ⟨hx.1, by omega⟩, put_other (by omega)]
  · rw [if_neg hx]
    by_cases he : x = d + n
    · subst he
      rw [if_pos ⟨by omega, by omega⟩, put_same, Nat.add_sub_cancel_left]
    · rw [if_neg (by omega), put_other he]

theorem copyUp_eq (h : d ≤ s ∨ s + n ≤ d) : copyUp m d s n = m.copied d s n := by
  induction n generalizing m d s with
  | zero => exact copied_zero.symm
  | succ n ih =>
    rw [copyUp, ih (by omega)]
    exact copied_up h

theorem copyDown_eq (h : s ≤ d ∨ d + n ≤ s) : copyDown m d s n = m.copied d s n := by
  induction n generalizing m with
  | zero => exact copied_zero.symm
  | succ n ih =>
    rw [copyDown, ih (by omega)]
    exact copied_down h

end Copies

section Lengths

/-- `n` is the length of the string at `src`. -/
structure StringAt (m : Bytes) (src n : ℕ) : Prop where
  nonzero : ∀ i < n, m (src + i) ≠ 0
  ends : m (src + n) = 0

/-- `n` is the smaller one of `size` and the length of the string at `src`. -/
structure PrefixAt (m : Bytes) (src size n : ℕ) : Prop where
  le : n ≤ size
  nonzero : ∀ i < n, m (src + i) ≠ 0
  ends : n < size → m (src + n) = 0

theorem StringAt.unique (h : StringAt m src n) (h' : StringAt m src k) : n = k := by
  rcases Nat.lt_trichotomy n k with hlt | rfl | hlt
  · exact absurd h.ends (h'.nonzero n hlt)
  · rfl
  · exact absurd h'.ends (h.nonzero k hlt)

theorem PrefixAt.unique (h : PrefixAt m src size n) (h' : PrefixAt m src size k) : n = k := by
  have hn := h.le
  have hk := h'.le
  rcases Nat.lt_trichotomy n k with hlt | rfl | hlt
  · exact absurd (h.ends (by omega)) (h'.nonzero n hlt)
  · rfl
  · exact absurd (h'.ends (by omega)) (h.nonzero k hlt)

theorem PrefixAt.cons (h : PrefixAt m (src + 1) size n) (h0 : m src ≠ 0) :
    PrefixAt m src (size + 1) (n + 1) where
  le := Nat.succ_le_succ h.le
  nonzero i hi := by
    cases i with
    | zero => exact h0
    | succ i =>
      have := h.nonzero i (by omega)
      rwa [Nat.add_right_comm] at this
  ends hlt := by
    have := h.ends (by omega)
    rwa [Nat.add_right_comm] at this

theorem StringAt.cons (h : StringAt m (src + 1) n) (h0 : m src ≠ 0) : StringAt m src (n + 1) where
  nonzero i hi := by
    cases i with
    | zero => exact h0
    | succ i =>
      have := h.nonzero i (by omega)
      rwa [Nat.add_right_comm] at this
  ends := by
    have := h.ends
    rwa [Nat.add_right_comm] at this

theorem strnlen_prefixAt : PrefixAt m src size (strnlen m src size) := by
  induction size generalizing src with
  | zero => exact ⟨le_rfl, fun i hi => absurd hi (Nat.not_lt_zero i), fun h => absurd h (lt_irrefl 0)⟩
  | succ size ih =>
    rw [strnlen]
    split
    · next h0 => exact ih.cons h0
    · next h0 => exact ⟨Nat.zero_le _, fun i hi => absurd hi (Nat.not_lt_zero i), fun _ => not_not.mp h0⟩

theorem strlenWithin_some (h : strlenWithin m src size = some n) : StringAt m src n ∧ n < size := by
  induction size generalizing src n with
  | zero => cases h
  | succ size ih =>
    rw [strlenWithin] at h
    split at h
    · next h0 =>
      obtain ⟨k, hk, rfl⟩ := Option.map_eq_some_iff.mp h
      obtain ⟨hs, hlt⟩ := ih hk
      exact ⟨hs.cons h0, Nat.succ_lt_succ hlt⟩
    · next h0 =>
      cases h
      exact ⟨⟨fun i hi => absurd hi (Nat.not_lt_zero i), not_not.mp h0⟩, Nat.succ_pos size⟩

theorem StringAt.strlenWithin (h : StringAt m src n) (hn : n < size) :
    strlenWithin m src size = some n := by
  induction size generalizing src n with
  | zero => exact absurd hn (Nat.not_lt_zero n)
  | succ size ih =>
    rw [Strings.strlenWithin]
    cases n with
    | zero =>
      have h0 : m src = 0 := h.ends
      rw [if_neg (not_not.mpr h0)]
    | succ n =>
      have h' : StringAt m (src + 1) n := by
        refine ⟨fun i hi => ?_, ?_⟩
        · have := h.nonzero (i + 1) (by omega)
          rwa [← Nat.add_assoc, Nat.add_right_comm] at this
        · have := h.ends
          rwa [← Nat.add_assoc, Nat.add_right_comm] at this
      have h0 : m src ≠ 0 := h.nonzero 0 (Nat.succ_pos n)
      rw [if_pos h0, ih h' (by omega)]
      rfl

theorem strlen_wp : Wp (strlen src) (fun n t => t = m ∧ StringAt m src n ∧ n < 2 ^ 64)
    (fun e t => t = m ∧ e = .fault ∧ ∀ n < 2 ^ 64, ¬ StringAt m src n) m := by
  unfold strlen
  refine Wp.bind_iff.mpr (Wp.get_iff.mpr ?_)
  cases h : strlenWithin m src (2 ^ 64) with
  | some n => exact ⟨rfl, strlenWithin_some h⟩
  | none =>
    refine ⟨rfl, rfl, fun n hn hs => ?_⟩
    rw [hs.strlenWithin hn] at h
    cases h

theorem strlen_fault (h : ¬ ∃ n < 2 ^ 64, StringAt m src n) : strlen src m = .error .fault m := by
  cases hr : Strings.strlen src m with
  | ok n t =>
    obtain ⟨-, hs, hn⟩ := strlen_wp.returns hr
    exact absurd ⟨n, hn, hs⟩ h
  | error e t =>
    obtain ⟨rfl, rfl, -⟩ := strlen_wp.stops hr
    rfl

theorem StringAt.strlen (h : StringAt m src n) (hn : n < 2 ^ 64) : strlen src m = .ok n m := by
  cases hr : Strings.strlen src m with
  | ok k t =>
    obtain ⟨rfl, hs, -⟩ := strlen_wp.returns hr
    rw [h.unique hs]
  | error e t => exact absurd h ((strlen_wp.stops hr).2.2 n hn)

end Lengths

section Padding

def Bytes.padded (m : Bytes) (d s n size : ℕ) : Bytes :=
  fun x => if d + n ≤ x ∧ x < d + size then 0 else m.copied d s n x

theorem strnlen_congr (h : ∀ x, src ≤ x → x ≤ src + strnlen m src size → x < src + size →
    m' x = m x) : strnlen m' src size = strnlen m src size := by
  have hp : PrefixAt m src size (strnlen m src size) := strnlen_prefixAt
  have hle := hp.le
  refine strnlen_prefixAt.unique ⟨hle, fun i hi => ?_, fun hlt => ?_⟩
  · rw [h (src + i) (by omega) (by omega) (by omega)]
    exact hp.nonzero i hi
  · rw [h _ (by omega) le_rfl (by omega)]
    exact hp.ends hlt

theorem fillZero_eq : fillZero m d n = fun x => if d ≤ x ∧ x < d + n then 0 else m x := by
  induction n generalizing m d with
  | zero =>
    funext x
    exact (if_neg (by omega)).symm
  | succ n ih =>
    rw [fillZero, ih]
    funext x
    by_cases hx : x = d
    · subst hx
      rw [if_neg (by omega), if_pos ⟨le_rfl, by omega⟩, put_same]
    · rw [put_other hx]
      by_cases h : d + 1 ≤ x ∧ x < d + 1 + n
      · rw [if_pos h, if_pos ⟨by omega, by omega⟩]
      · rw [if_neg h, if_neg (by omega)]

theorem copyPadded_eq (h : d ≤ s ∨ s + strnlen m s size < d ∨
    strnlen m s size = size ∧ s + size ≤ d) :
    copyPadded m d s size = m.padded d s (strnlen m s size) size := by
  induction size generalizing m d s with
  | zero =>
    funext x
    rw [copyPadded, strnlen, Bytes.padded, if_neg (by omega), copied_zero]
  | succ size ih =>
    by_cases h0 : m s ≠ 0
    · have hn : strnlen m s (size + 1) = strnlen m (s + 1) size + 1 := by rw [strnlen, if_pos h0]
      have hle : strnlen m (s + 1) size ≤ size := strnlen_prefixAt.le
      rw [hn] at h ⊢
      have hcongr : strnlen (m.put d (m s)) (s + 1) size = strnlen m (s + 1) size :=
        strnlen_congr fun x h1 h2 h3 => put_other (by omega)
      rw [copyPadded, if_pos h0, ih (by rw [hcongr]; omega), hcongr]
      funext x
      unfold Bytes.padded
      have hup : (m.put d (m s)).copied (d + 1) (s + 1) (strnlen m (s + 1) size) =
          m.copied d s (strnlen m (s + 1) size + 1) := copied_up (by omega)
      by_cases hx : d + (strnlen m (s + 1) size + 1) ≤ x ∧ x < d + (size + 1)
      · rw [if_pos ⟨by omega, by omega⟩, if_pos hx]
      · rw [if_neg (by omega), if_neg hx, hup]
    · have hn : strnlen m s (size + 1) = 0 := by rw [strnlen, if_neg h0]
      rw [copyPadded, if_neg h0, fillZero_eq, hn]
      funext x
      unfold Bytes.padded
      rw [copied_zero]
      rfl

theorem copyPadded_outside (h : ¬ (d ≤ x ∧ x < d + size)) : copyPadded m d s size x = m x := by
  induction size generalizing m d s with
  | zero => rfl
  | succ size ih =>
    rw [copyPadded]
    split
    · rw [ih (by omega), put_other (by omega)]
    · rw [fillZero_eq]
      exact if_neg h

/-- Started right before bytes that are not zero, the loop reads what it has written. -/
theorem copyPadded_runaway (hsd : s < d) (h : ∀ x, s ≤ x → x < d → m x ≠ 0) :
    ∀ x, d ≤ x → x < d + size → copyPadded m d s size x ≠ 0 := by
  induction size generalizing m d s with
  | zero => exact fun x h1 h2 => absurd h1 (by omega)
  | succ size ih =>
    intro x h1 h2
    have h0 : m s ≠ 0 := h s le_rfl hsd
    rw [copyPadded, if_pos h0]
    have hnext : ∀ y, s + 1 ≤ y → y < d + 1 → (m.put d (m s)) y ≠ 0 := by
      intro y hy1 hy2
      by_cases hy : y = d
      · rw [hy, put_same]
        exact h0
      · rw [put_other hy]
        exact h y (by omega) (by omega)
    by_cases hx : x = d
    · rw [copyPadded_outside (by omega)]
      exact hnext x (by omega) (by omega)
    · exact ih (by omega) hnext x (by omega) (by omega)

end Padding

end Duma.Strings

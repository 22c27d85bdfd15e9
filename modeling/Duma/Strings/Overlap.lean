import Duma.Strings.Loops
import Mathlib.Order.MinMax

/-! # Overlapping regions

What the copy functions leave in memory, and which overlaps of their source and their destination
they report.
-/

namespace Duma.Strings

variable {m m' : Bytes} {dest src size n e p : ℕ} {overlap : Bool}

def Overlaps (a k b l : ℕ) : Prop := ∃ x, (a ≤ x ∧ x < a + k) ∧ b ≤ x ∧ x < b + l

theorem overlaps_iff {a k b l : ℕ} :
    Overlaps a k b l ↔ 0 < k ∧ 0 < l ∧ a < b + l ∧ b < a + k := by
  constructor
  · rintro ⟨x, ⟨h1, h2⟩, h3, h4⟩
    exact ⟨by omega, by omega, by omega, by omega⟩
  · rintro ⟨h1, h2, h3, h4⟩
    exact ⟨max a b, ⟨le_max_left .., by omega⟩, le_max_right .., by omega⟩

section Memory

theorem memmove_eq : memmove dest src size m = .ok dest (m.copied dest src size) := by
  unfold memmove
  by_cases h : dest < src
  · rw [if_pos h, ← copyUp_eq (Or.inl h.le)]
    rfl
  · rw [if_neg h, ← copyDown_eq (Or.inl (not_lt.mp h))]
    rfl

/-- `memmove` copies the bytes at its start, however the ranges lie. -/
theorem memmove_correct (m : Bytes) (dest src size : ℕ) :
    ∃ m', memmove dest src size m = .ok dest m' ∧ (∀ i < size, m' (dest + i) = m (src + i)) ∧
      ∀ x, ¬ (dest ≤ x ∧ x < dest + size) → m' x = m x :=
  ⟨_, memmove_eq, fun _ => copied_inside, fun _ => copied_outside⟩

/-- The test that `memcpy` makes. -/
def Guard (overlap : Bool) (dest src size : ℕ) : Prop :=
  src < dest ∧ dest < src + size ∨ dest < src ∧ src < dest + size ∧ overlap = false

instance : Decidable (Guard overlap dest src size) := inferInstanceAs (Decidable (_ ∨ _))

theorem memcpy_abort (h : Guard overlap dest src size) :
    memcpy overlap dest src size m = .error (.overlap .memcpy dest src (some size)) m := by
  unfold memcpy
  exact if_pos h ▸ rfl

theorem memcpy_eq (h : ¬ Guard overlap dest src size) (hn : size < 2 ^ 32) :
    memcpy overlap dest src size m = .ok dest (copyUp m dest src size) := by
  have hn' : ¬ 2 ^ 32 ≤ size := not_le.mpr hn
  unfold memcpy
  unfold Guard at h
  rw [if_neg h, if_neg hn']
  rfl

theorem guard_iff : Guard overlap dest src size ↔
    dest ≠ src ∧ Overlaps src size dest size ∧ ¬ (overlap = true ∧ dest < src) := by
  rw [overlaps_iff]
  unfold Guard
  cases overlap with
  | false =>
    simp only [and_true, Bool.false_eq_true, false_and, not_false_eq_true]
    omega
  | true =>
    simp only [Bool.true_eq_false, and_false, or_false, true_and]
    omega

/-- What the guard lets pass is copied forwards as `memmove` would copy it. -/
theorem memcpy_memmove (h : ¬ Guard overlap dest src size) (hn : size < 2 ^ 32) :
    memcpy overlap dest src size m = memmove dest src size m := by
  rw [memcpy_eq h hn, memmove_eq, copyUp_eq]
  unfold Guard at h
  omega

/-- `memcpy` reports overlapping ranges, except that `MEMCPY_OVERLAP` admits a destination below
its source, and otherwise does what `memmove` does. -/
theorem memcpy_exact (m : Bytes) (overlap : Bool) (dest src size : ℕ) (h : size < 2 ^ 32) :
    (memcpy overlap dest src size m = .error (.overlap .memcpy dest src (some size)) m ↔
      dest ≠ src ∧ Overlaps src size dest size ∧ ¬ (overlap = true ∧ dest < src)) ∧
    ((∀ t, memcpy overlap dest src size m ≠ .error (.overlap .memcpy dest src (some size)) t) →
      memcpy overlap dest src size m = memmove dest src size m) := by
  rw [← guard_iff]
  refine ⟨⟨fun he => ?_, memcpy_abort⟩, fun hne => memcpy_memmove (fun hg => ?_) h⟩
  · by_contra hg
    rw [memcpy_eq hg h] at he
    cases he
  · exact hne m (memcpy_abort hg)

theorem memcpy_exact_below : memcpy true 16 20 8 UInt8.ofNat = memmove 16 20 8 UInt8.ofNat := by
  refine (memcpy_exact UInt8.ofNat true 16 20 8 (by decide)).2 fun t h => ?_
  rw [memcpy_eq (by decide) (by decide)] at h
  cases h

end Memory

section Strncpy

theorem strncpy_eq (hn : PrefixAt m src size n) : strncpy dest src size m =
    if 0 < size ∧ (src < dest ∧ dest < src + n ∨ dest < src ∧ src < dest + size) then
      .error (.overlap .strncpy dest src (some size)) m
    else .ok dest (copyPadded m dest src size) := by
  obtain rfl := hn.unique strnlen_prefixAt
  unfold strncpy
  rw [Wp.bind_of_ok (show (get : BytesM Bytes) m = .ok m m from rfl)]
  dsimp only
  split <;> rfl

/-- The string of at most `size` bytes, padded with zeros, is at `dest`. -/
structure Padded (m : Bytes) (dest src size n : ℕ) (m' : Bytes) : Prop where
  string : ∀ i < n, m' (dest + i) = m (src + i)
  zeros : ∀ i, n ≤ i → i < size → m' (dest + i) = 0
  outside : ∀ x, ¬ (dest ≤ x ∧ x < dest + size) → m' x = m x

theorem padded_of_eq (h : n ≤ size) : Padded m dest src size n (m.padded dest src n size) where
  string i hi := by
    unfold Bytes.padded
    rw [if_neg (by omega), copied_inside hi]
  zeros i h1 h2 := by
    unfold Bytes.padded
    rw [if_pos ⟨by omega, by omega⟩]
  outside x hx := by
    unfold Bytes.padded
    rw [if_neg (by omega), copied_outside (by omega)]

/-- The copy of a string to its own terminator never finds it. -/
theorem strncpy_padded_iff (hn : PrefixAt m src size n) (h : strncpy dest src size m = .ok p m') :
    Padded m dest src size n m' ↔ ¬ (0 < n ∧ n < size ∧ dest = src + n) := by
  have hle := hn.le
  rw [strncpy_eq hn] at h
  split at h
  · cases h
  · next hg =>
    cases h
    constructor
    · rintro hp ⟨h0, hlt, rfl⟩
      refine copyPadded_runaway (m := m) (s := src) (d := src + n) (by omega) (fun x h1 h2 => ?_)
        (src + n + n) (by omega) (by omega) (hp.zeros n le_rfl hlt)
      have := hn.nonzero (x - src) (by omega)
      rwa [Nat.add_sub_cancel' h1] at this
    · intro hno
      have hlen : strnlen m src size = n := strnlen_prefixAt.unique hn
      rw [copyPadded_eq (by omega), hlen]
      exact padded_of_eq hle

def sampleBytes : Bytes := fun x => if x = 16 then 65 else 0

theorem prefixAt_sample : PrefixAt sampleBytes 16 3 1 := ⟨by decide, by decide, fun _ => rfl⟩

theorem strncpy_padded_apart :
    ∃ m', strncpy 32 16 3 sampleBytes = .ok 32 m' ∧ Padded sampleBytes 32 16 3 1 m' := by
  have h : strncpy 32 16 3 sampleBytes = .ok 32 (copyPadded sampleBytes 32 16 3) := by
    rw [strncpy_eq prefixAt_sample]
    exact if_neg (by decide)
  exact ⟨_, h, (strncpy_padded_iff prefixAt_sample h).mpr (by decide)⟩

/-- A string of one character is copied to its own terminator. -/
theorem strncpy_padded_fails : ¬ ∀ (m m' : Bytes) (dest src size n p : ℕ),
    PrefixAt m src size n → strncpy dest src size m = .ok p m' → Padded m dest src size n m' := by
  intro h
  have he : strncpy 17 16 3 sampleBytes = .ok 17 (copyPadded sampleBytes 17 16 3) := by
    rw [strncpy_eq prefixAt_sample]
    exact if_neg (by decide)
  exact absurd ((h _ _ _ _ _ _ _ prefixAt_sample he).zeros 1 le_rfl (by decide)) (by decide)

end Strncpy

section Calls

theorem strcpy_eq (hs : StringAt m src n) (hn : n < 2 ^ 64) : strcpy dest src m =
    if src < dest ∧ dest < src + (n + 1) then .error (.overlap .strcpy dest src none) m
    else .ok dest (copyUp m dest src (n + 1)) := by
  unfold strcpy
  rw [Wp.bind_of_ok (hs.strlen hn)]
  dsimp only
  split <;> rfl

theorem strcat_eq (hd : StringAt m dest e) (he : e < 2 ^ 64) (hs : StringAt m src n)
    (hn : n < 2 ^ 64) : strcat dest src m =
    if src < dest + e ∧ dest + e < src + (n + 1) then .error (.overlap .strcat dest src none) m
    else if 2 ^ 32 ≤ n + 1 then .error .loops m
    else .ok dest (copyUp m (dest + e) src (n + 1)) := by
  unfold strcat
  rw [Wp.bind_of_ok (hd.strlen he), Wp.bind_of_ok (hs.strlen hn)]
  dsimp only
  split
  · rfl
  · split <;> rfl

theorem strncat_zero : strncat dest src 0 m = .ok dest m := by
  unfold strncat
  rw [if_pos rfl]
  rfl

theorem strncat_eq (h0 : size ≠ 0) (hd : StringAt m dest e) (he : e < 2 ^ 64)
    (hs : PrefixAt m src size n) : strncat dest src size m =
    if src < dest + e ∧ dest + e < src + n + 1 then
      .error (.overlap .strncat dest src (some size)) m
    else if 2 ^ 32 ≤ n then .error .loops m
    else .ok dest ((copyUp m (dest + e) src n).put (dest + e + n) 0) := by
  obtain rfl := hs.unique strnlen_prefixAt
  unfold strncat
  rw [if_neg h0, Wp.bind_of_ok (hd.strlen he),
    Wp.bind_of_ok (show (get : BytesM Bytes) m = .ok m m from rfl)]
  dsimp only
  split
  · rfl
  · split <;> rfl

end Calls

section Append

/-- The string of length `e` at `dest` is followed by `k` characters from `src`. -/
structure Appended (m : Bytes) (dest e src k : ℕ) (m' : Bytes) : Prop where
  string : StringAt m' dest (e + k)
  before : ∀ i < e, m' (dest + i) = m (dest + i)
  after : ∀ i < k, m' (dest + e + i) = m (src + i)
  outside : ∀ x, ¬ (dest + e ≤ x ∧ x ≤ dest + e + k) → m' x = m x

/-- A call reports the overlap, or it appends. -/
def Appends (call : BytesM ℕ) (report : Halt) (m : Bytes) (dest e src k : ℕ) : Prop :=
  call m = .error report m ∨ ∃ m', call m = .ok dest m' ∧ Appended m dest e src k m'

theorem Appended.intro {k : ℕ} (hd : ∀ i < e, m (dest + i) ≠ 0) (hs : ∀ i < k, m (src + i) ≠ 0)
    (hcopy : ∀ i < k, m' (dest + e + i) = m (src + i)) (hzero : m' (dest + e + k) = 0)
    (hout : ∀ x, ¬ (dest + e ≤ x ∧ x ≤ dest + e + k) → m' x = m x) :
    Appended m dest e src k m' where
  string := by
    refine ⟨fun i hi => ?_, by rw [← Nat.add_assoc]; exact hzero⟩
    by_cases hlt : i < e
    · rw [hout _ (by omega)]
      exact hd i hlt
    · have := hcopy (i - e) (by omega)
      rw [show dest + e + (i - e) = dest + i by omega] at this
      rw [this]
      exact hs _ (by omega)
  before i hi := hout _ (by omega)
  after := hcopy
  outside := hout

theorem appended_copyUp (hd : ∀ i < e, m (dest + i) ≠ 0) (hs : StringAt m src n)
    (h : ¬ (src < dest + e ∧ dest + e < src + (n + 1))) :
    Appended m dest e src n (copyUp m (dest + e) src (n + 1)) := by
  rw [copyUp_eq (by omega)]
  refine .intro hd hs.nonzero (fun i hi => copied_inside (by omega)) ?_ fun x hx =>
    copied_outside (by omega)
  rw [copied_inside (Nat.lt_succ_self n)]
  exact hs.ends

theorem appended_put (hd : ∀ i < e, m (dest + i) ≠ 0) (hs : ∀ i < n, m (src + i) ≠ 0)
    (h : ¬ (src < dest + e ∧ dest + e < src + n + 1)) :
    Appended m dest e src n ((copyUp m (dest + e) src n).put (dest + e + n) 0) := by
  rw [copyUp_eq (by omega)]
  refine .intro hd hs (fun i hi => ?_) put_same fun x hx => ?_
  · rw [put_other (by omega), copied_inside hi]
  · rw [put_other (by omega), copied_outside (by omega)]

theorem StringAt.prefix_min (h : StringAt m src n) : PrefixAt m src size (min n size) :=
  ⟨min_le_right .., fun i hi => h.nonzero i (by omega), fun hlt => by
    rw [min_eq_left (by omega)]
    exact h.ends⟩

/-- The copies of strings that are not reported are right. -/
theorem string_copies_correct (m : Bytes) (dest src n : ℕ) (hs : StringAt m src n)
    (hn : n < 2 ^ 64) :
    Appends (strcpy dest src) (.overlap .strcpy dest src none) m dest 0 src n ∧
    ∀ e, StringAt m dest e → e < 2 ^ 64 →
      (n + 1 < 2 ^ 32 →
        Appends (strcat dest src) (.overlap .strcat dest src none) m dest e src n) ∧
      ∀ size, min n size < 2 ^ 32 →
        Appends (strncat dest src size) (.overlap .strncat dest src (some size)) m dest e src
          (min n size) := by
  refine ⟨?_, fun e hd he => ⟨fun hlt => ?_, fun size hmin => ?_⟩⟩
  · unfold Appends
    rw [strcpy_eq hs hn]
    split
    · exact Or.inl rfl
    · next h => exact Or.inr ⟨_, rfl, appended_copyUp (fun _ hi => absurd hi (Nat.not_lt_zero _)) hs h⟩
  · unfold Appends
    rw [strcat_eq hd he hs hn, if_neg (not_le.mpr hlt)]
    split
    · exact Or.inl rfl
    · next h => exact Or.inr ⟨_, rfl, appended_copyUp hd.nonzero hs h⟩
  · unfold Appends
    by_cases h0 : size = 0
    · subst h0
      rw [strncat_zero, Nat.min_zero]
      exact Or.inr ⟨_, rfl, .intro hd.nonzero (fun _ hi => absurd hi (Nat.not_lt_zero _))
        (fun _ hi => absurd hi (Nat.not_lt_zero _)) hd.ends fun _ _ => rfl⟩
    · have hp : PrefixAt m src size (min n size) := hs.prefix_min
      rw [strncat_eq h0 hd he hp, if_neg (not_le.mpr hmin)]
      split
      · exact Or.inl rfl
      · next h => exact Or.inr ⟨_, rfl, appended_put hd.nonzero hp.nonzero h⟩

theorem string_copies_sample : StringAt sampleBytes 16 1 ∧
    Appends (strcat 32 16) (.overlap .strcat 32 16 none) sampleBytes 32 0 16 1 := by
  have hs : StringAt sampleBytes 16 1 := ⟨by decide, rfl⟩
  obtain ⟨-, happend⟩ := string_copies_correct sampleBytes 32 16 1 hs (by decide)
  exact ⟨hs, (happend 0 ⟨nofun, rfl⟩ (by decide)).1 (by decide)⟩

end Append

end Duma.Strings

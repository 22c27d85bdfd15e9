import Duma.Strings.Overlap

/-! # Reports of overlapping strings

The four string functions test for an overlap on their own, each from one side. Their tests are
compared here with the bytes that a call reads and those that it writes.
-/

namespace Duma.Strings

inductive StringCall
  | strcpy (dest src : ℕ)
  | strncpy (dest src size : ℕ)
  | strcat (dest src : ℕ)
  | strncat (dest src size : ℕ)
  deriving DecidableEq, Repr

namespace StringCall

def exec : StringCall → BytesM ℕ
  | strcpy dest src => Strings.strcpy dest src
  | strncpy dest src size => Strings.strncpy dest src size
  | strcat dest src => Strings.strcat dest src
  | strncat dest src size => Strings.strncat dest src size

def src : StringCall → ℕ
  | strcpy _ src | strncpy _ src _ | strcat _ src | strncat _ src _ => src

def report : StringCall → Halt
  | strcpy dest src => .overlap .strcpy dest src none
  | strncpy dest src size => .overlap .strncpy dest src (some size)
  | strcat dest src => .overlap .strcat dest src none
  | strncat dest src size => .overlap .strncat dest src (some size)

/-- The call stops with its report, and memory is as it was. -/
def Aborts (m : Bytes) (c : StringCall) : Prop := c.exec m = .error c.report m

/-- The address at which the call begins to write. -/
def Position (m : Bytes) : StringCall → ℕ → Prop
  | strcpy dest _, p | strncpy dest _ _, p => p = dest
  | strcat dest _, p | strncat dest _ _, p => ∃ e < 2 ^ 64, StringAt m dest e ∧ p = dest + e

/-- The number of source bytes that the call reads: those of a string and its terminator, or of
`size` bytes without one. -/
def Reads (m : Bytes) : StringCall → ℕ → Prop
  | strcpy _ src, k | strcat _ src, k => ∃ n < 2 ^ 64, StringAt m src n ∧ k = n + 1
  | strncpy _ src size, k | strncat _ src size, k =>
    ∃ n, PrefixAt m src size n ∧ k = if n < size then n + 1 else n

def Writes (m : Bytes) : StringCall → ℕ → Prop
  | strcpy _ src, k | strcat _ src, k => ∃ n < 2 ^ 64, StringAt m src n ∧ k = n + 1
  | strncpy _ _ size, k => k = size
  | strncat _ src size, k => ∃ n, PrefixAt m src size n ∧ k = if size = 0 then 0 else n + 1

/-- The source bytes read and the bytes written have an address in common. -/
def Meets (m : Bytes) (c : StringCall) : Prop :=
  ∃ p k l, c.Position m p ∧ c.Reads m k ∧ c.Writes m l ∧ Overlaps c.src k p l

variable {m : Bytes} {dest src size n : ℕ}

section Strcpy

theorem aborts_strcpy : (strcpy dest src).Aborts m ↔
    ∃ n < 2 ^ 64, StringAt m src n ∧ src < dest ∧ dest < src + (n + 1) := by
  change Strings.strcpy dest src m = _ ↔ _
  by_cases h : ∃ n < 2 ^ 64, StringAt m src n
  · obtain ⟨n, hn, hs⟩ := h
    rw [strcpy_eq hs hn]
    constructor
    · intro he
      split at he
      · next hg => exact ⟨n, hn, hs, hg⟩
      · cases he
    · rintro ⟨k, -, hk, hg⟩
      obtain rfl := hs.unique hk
      exact if_pos hg
  · unfold Strings.strcpy
    rw [Wp.bind_of_error (strlen_fault h)]
    exact ⟨nofun, fun ⟨n, hn, hs, _⟩ => absurd ⟨n, hn, hs⟩ h⟩

theorem meets_strcpy : (strcpy dest src).Meets m ↔
    ∃ n < 2 ^ 64, StringAt m src n ∧ src < dest + (n + 1) ∧ dest < src + (n + 1) := by
  constructor
  · rintro ⟨p, k, l, rfl, ⟨n, hn, hs, rfl⟩, ⟨n', -, hs', rfl⟩, ho⟩
    obtain rfl := hs.unique hs'
    obtain ⟨-, -, h1, h2⟩ := overlaps_iff.mp ho
    exact ⟨n, hn, hs, h1, h2⟩
  · rintro ⟨n, hn, hs, h1, h2⟩
    exact ⟨dest, n + 1, n + 1, rfl, ⟨n, hn, hs, rfl⟩, ⟨n, hn, hs, rfl⟩,
      overlaps_iff.mpr ⟨Nat.succ_pos n, Nat.succ_pos n, h1, h2⟩⟩

end Strcpy

section Strncpy

theorem aborts_strncpy (hs : PrefixAt m src size n) : (strncpy dest src size).Aborts m ↔
    0 < size ∧ (src < dest ∧ dest < src + n ∨ dest < src ∧ src < dest + size) := by
  change Strings.strncpy dest src size m = _ ↔ _
  rw [strncpy_eq hs]
  constructor
  · intro he
    split at he
    · next hg => exact hg
    · cases he
  · exact fun hg => if_pos hg

theorem meets_strncpy (hs : PrefixAt m src size n) : (strncpy dest src size).Meets m ↔
    0 < size ∧ src < dest + size ∧ dest < src + (if n < size then n + 1 else n) := by
  have hle := hs.le
  constructor
  · rintro ⟨p, k, l, rfl, ⟨n', hs', rfl⟩, rfl, ho⟩
    obtain rfl := hs.unique hs'
    obtain ⟨-, h0, h1, h2⟩ := overlaps_iff.mp ho
    exact ⟨h0, h1, h2⟩
  · rintro ⟨h0, h1, h2⟩
    refine ⟨dest, _, size, rfl, ⟨n, hs, rfl⟩, rfl, overlaps_iff.mpr ⟨?_, h0, h1, h2⟩⟩
    split <;> omega

end Strncpy

section Strcat

theorem aborts_strcat : (strcat dest src).Aborts m ↔
    ∃ e < 2 ^ 64, ∃ n < 2 ^ 64, StringAt m dest e ∧ StringAt m src n ∧
      src < dest + e ∧ dest + e < src + (n + 1) := by
  change Strings.strcat dest src m = _ ↔ _
  by_cases hd : ∃ e < 2 ^ 64, StringAt m dest e
  · obtain ⟨e, he, hd⟩ := hd
    by_cases hs : ∃ n < 2 ^ 64, StringAt m src n
    · obtain ⟨n, hn, hs⟩ := hs
      rw [strcat_eq hd he hs hn]
      constructor
      · intro h
        split at h
        · next hg => exact ⟨e, he, n, hn, hd, hs, hg⟩
        · split at h <;> cases h
      · rintro ⟨e', -, n', -, hd', hs', hg⟩
        obtain rfl := hd.unique hd'
        obtain rfl := hs.unique hs'
        exact if_pos hg
    · unfold Strings.strcat
      rw [Wp.bind_of_ok (hd.strlen he), Wp.bind_of_error (strlen_fault hs)]
      exact ⟨nofun, fun ⟨_, _, n, hn, _, hs', _⟩ => absurd ⟨n, hn, hs'⟩ hs⟩
  · unfold Strings.strcat
    rw [Wp.bind_of_error (strlen_fault hd)]
    exact ⟨nofun, fun ⟨e, he, _, _, hd', _⟩ => absurd ⟨e, he, hd'⟩ hd⟩

theorem meets_strcat : (strcat dest src).Meets m ↔
    ∃ e < 2 ^ 64, ∃ n < 2 ^ 64, StringAt m dest e ∧ StringAt m src n ∧
      src < dest + e + (n + 1) ∧ dest + e < src + (n + 1) := by
  constructor
  · rintro ⟨p, k, l, ⟨e, he, hd, rfl⟩, ⟨n, hn, hs, rfl⟩, ⟨n', -, hs', rfl⟩, ho⟩
    obtain rfl := hs.unique hs'
    obtain ⟨-, -, h1, h2⟩ := overlaps_iff.mp ho
    exact ⟨e, he, n, hn, hd, hs, h1, h2⟩
  · rintro ⟨e, he, n, hn, hd, hs, h1, h2⟩
    exact ⟨dest + e, n + 1, n + 1, ⟨e, he, hd, rfl⟩, ⟨n, hn, hs, rfl⟩, ⟨n, hn, hs, rfl⟩,
      overlaps_iff.mpr ⟨Nat.succ_pos n, Nat.succ_pos n, h1, h2⟩⟩

end Strcat

section Strncat

theorem aborts_strncat (hs : PrefixAt m src size n) : (strncat dest src size).Aborts m ↔
    0 < size ∧ ∃ e < 2 ^ 64, StringAt m dest e ∧ src < dest + e ∧ dest + e < src + n + 1 := by
  change Strings.strncat dest src size m = _ ↔ _
  by_cases h0 : size = 0
  · subst h0
    rw [strncat_zero]
    exact ⟨nofun, fun h => absurd h.1 (lt_irrefl 0)⟩
  · by_cases hd : ∃ e < 2 ^ 64, StringAt m dest e
    · obtain ⟨e, he, hd⟩ := hd
      rw [strncat_eq h0 hd he hs]
      constructor
      · intro h
        split at h
        · next hg => exact ⟨Nat.pos_of_ne_zero h0, e, he, hd, hg⟩
        · split at h <;> cases h
      · rintro ⟨-, e', -, hd', hg⟩
        obtain rfl := hd.unique hd'
        exact if_pos hg
    · unfold Strings.strncat
      rw [if_neg h0, Wp.bind_of_error (strlen_fault hd)]
      exact ⟨nofun, fun ⟨_, e, he, hd', _⟩ => absurd ⟨e, he, hd'⟩ hd⟩

theorem meets_strncat (hs : PrefixAt m src size n) : (strncat dest src size).Meets m ↔
    0 < size ∧ ∃ e < 2 ^ 64, StringAt m dest e ∧ src < dest + e + (n + 1) ∧
      dest + e < src + (if n < size then n + 1 else n) := by
  have hle := hs.le
  constructor
  · rintro ⟨p, k, l, ⟨e, he, hd, rfl⟩, ⟨n', hs', rfl⟩, ⟨n'', hs'', rfl⟩, ho⟩
    obtain rfl := hs.unique hs'
    obtain rfl := hs.unique hs''
    obtain ⟨-, h0, h1, h2⟩ := overlaps_iff.mp ho
    split at h0
    · exact absurd h0 (lt_irrefl 0)
    · next hz =>
      rw [if_neg hz] at h1
      exact ⟨Nat.pos_of_ne_zero hz, e, he, hd, h1, h2⟩
  · rintro ⟨h0, e, he, hd, h1, h2⟩
    have hz : size ≠ 0 := h0.ne'
    refine ⟨dest + e, _, _, ⟨e, he, hd, rfl⟩, ⟨n, hs, rfl⟩, ⟨n, hs, rfl⟩, overlaps_iff.mpr ?_⟩
    rw [if_neg hz]
    refine ⟨?_, Nat.succ_pos n, h1, h2⟩
    split <;> omega

end Strncat

section Exact

/-- A part of a string without a terminator ends right where the call begins to write. -/
def Adjacent (m : Bytes) : StringCall → Prop
  | strncat dest src size => 0 < size ∧ PrefixAt m src size size ∧
      ∃ e < 2 ^ 64, StringAt m dest e ∧ dest + e = src + size
  | _ => False

/-- Only `strncat` reports regions that do not overlap, and only adjacent ones. -/
theorem no_false_alarm_iff (m : Bytes) (c : StringCall) :
    (c.Aborts m → c.Meets m) ↔ ¬ c.Adjacent m := by
  cases c with
  | strcpy dest src =>
    rw [aborts_strcpy, meets_strcpy]
    refine ⟨fun _ h => h, ?_⟩
    rintro - ⟨n, hn, hs, h1, h2⟩
    exact ⟨n, hn, hs, by omega, h2⟩
  | strncpy dest src size =>
    have hs : PrefixAt m src size _ := strnlen_prefixAt
    have hle := hs.le
    rw [aborts_strncpy hs, meets_strncpy hs]
    refine ⟨fun _ h => h, ?_⟩
    rintro - ⟨h0, h⟩
    refine ⟨h0, by omega, ?_⟩
    split <;> omega
  | strcat dest src =>
    rw [aborts_strcat, meets_strcat]
    refine ⟨fun _ h => h, ?_⟩
    rintro - ⟨e, he, n, hn, hd, hs, h1, h2⟩
    exact ⟨e, he, n, hn, hd, hs, by omega, h2⟩
  | strncat dest src size =>
    have hs : PrefixAt m src size _ := strnlen_prefixAt
    have hle := hs.le
    rw [aborts_strncat hs, meets_strncat hs]
    constructor
    · rintro h ⟨h0, hp, e, he, hd, heq⟩
      rw [hs.unique hp, if_neg (lt_irrefl size)] at h
      obtain ⟨-, e', -, hd', -, hlt⟩ := h ⟨h0, e, he, hd, by omega, by omega⟩
      obtain rfl := hd.unique hd'
      omega
    · rintro hno ⟨h0, e, he, hd, h1, h2⟩
      refine ⟨h0, e, he, hd, by omega, ?_⟩
      by_cases hlt : strnlen m src size < size
      · rw [if_pos hlt]
        omega
      · rw [if_neg hlt]
        have hn : strnlen m src size = size := by omega
        rw [hn] at hs h2 ⊢
        by_contra hge
        exact hno ⟨h0, hs, e, he, hd, by omega⟩

/-- One character is appended right behind itself. -/
theorem no_false_alarm_fails : ¬ ∀ (m : Bytes) (c : StringCall), c.Aborts m → c.Meets m := by
  intro h
  have hs : PrefixAt sampleBytes 16 1 1 := ⟨le_rfl, by decide, nofun⟩
  have hd : StringAt sampleBytes 17 0 := ⟨nofun, rfl⟩
  have habort : (strncat 17 16 1).Aborts sampleBytes :=
    (aborts_strncat hs).mpr ⟨by decide, 0, by decide, hd, by decide, by decide⟩
  obtain ⟨-, e, -, hd', -, hlt⟩ := (meets_strncat hs).mp (h _ _ habort)
  obtain rfl := hd.unique hd'
  exact absurd hlt (by decide)

/-- The bytes written begin below the source and reach it, or they begin on the terminator. -/
def Missed (m : Bytes) : StringCall → Prop
  | strcpy dest src => ∃ n < 2 ^ 64, StringAt m src n ∧ dest < src ∧ src ≤ dest + n
  | strncpy dest src size => ∃ n, PrefixAt m src size n ∧ 0 < n ∧ n < size ∧ dest = src + n
  | strcat dest src => ∃ e < 2 ^ 64, ∃ n < 2 ^ 64, StringAt m dest e ∧ StringAt m src n ∧
      dest + e < src ∧ src ≤ dest + e + n
  | strncat dest src size => 0 < size ∧ ∃ e < 2 ^ 64, ∃ n, StringAt m dest e ∧
      PrefixAt m src size n ∧ dest + e < src ∧ src ≤ dest + e + n

/-- Writing that begins apart from the source but meets it is reported, unless it is missed. -/
theorem overlap_detected_iff (m : Bytes) (c : StringCall) :
    ((∀ p, c.Position m p → p ≠ c.src) → c.Meets m → c.Aborts m) ↔ ¬ c.Missed m := by
  cases c with
  | strcpy dest src =>
    rw [aborts_strcpy, meets_strcpy]
    constructor
    · rintro h ⟨n, hn, hs, h1, h2⟩
      have hpos : ∀ p, (strcpy dest src).Position m p → p ≠ src := by
        rintro p rfl
        exact h1.ne
      obtain ⟨n', -, -, hlt, -⟩ := h hpos ⟨n, hn, hs, by omega, by omega⟩
      omega
    · rintro hno hpos ⟨n, hn, hs, h1, h2⟩
      have hne : dest ≠ src := hpos dest rfl
      refine ⟨n, hn, hs, ?_, h2⟩
      by_contra hge
      exact hno ⟨n, hn, hs, by omega, by omega⟩
  | strncpy dest src size =>
    have hs : PrefixAt m src size _ := strnlen_prefixAt
    have hle := hs.le
    rw [aborts_strncpy hs, meets_strncpy hs]
    constructor
    · rintro h ⟨n, hp, h0, hlt, rfl⟩
      obtain rfl := hs.unique hp
      have hpos : ∀ p, (strncpy (src + strnlen m src size) src size).Position m p → p ≠ src := by
        rintro p rfl
        omega
      have := h hpos ⟨by omega, by omega, by rw [if_pos hlt]; omega⟩
      omega
    · rintro hno hpos ⟨h0, h1, h2⟩
      have hne : dest ≠ src := hpos dest rfl
      refine ⟨h0, ?_⟩
      by_contra hg
      by_cases hlt : strnlen m src size < size
      · rw [if_pos hlt] at h2
        exact hno ⟨_, hs, by omega, hlt, by omega⟩
      · rw [if_neg hlt] at h2
        omega
  | strcat dest src =>
    rw [aborts_strcat, meets_strcat]
    constructor
    · rintro h ⟨e, he, n, hn, hd, hs, h1, h2⟩
      have hpos : ∀ p, (strcat dest src).Position m p → p ≠ src := by
        rintro p ⟨e', -, hd', rfl⟩
        obtain rfl := hd.unique hd'
        exact h1.ne
      obtain ⟨e', -, n', -, hd', -, hlt, -⟩ := h hpos ⟨e, he, n, hn, hd, hs, by omega, by omega⟩
      obtain rfl := hd.unique hd'
      omega
    · rintro hno hpos ⟨e, he, n, hn, hd, hs, h1, h2⟩
      have hne : dest + e ≠ src := hpos _ ⟨e, he, hd, rfl⟩
      refine ⟨e, he, n, hn, hd, hs, ?_, h2⟩
      by_contra hge
      exact hno ⟨e, he, n, hn, hd, hs, by omega, by omega⟩
  | strncat dest src size =>
    have hs : PrefixAt m src size _ := strnlen_prefixAt
    rw [aborts_strncat hs, meets_strncat hs]
    constructor
    · rintro h ⟨h0, e, he, n, hd, hp, h1, h2⟩
      obtain rfl := hs.unique hp
      have hpos : ∀ p, (strncat dest src size).Position m p → p ≠ src := by
        rintro p ⟨e', -, hd', rfl⟩
        obtain rfl := hd.unique hd'
        exact h1.ne
      obtain ⟨-, e', -, hd', hlt, -⟩ := h hpos ⟨h0, e, he, hd, by omega, by split <;> omega⟩
      obtain rfl := hd.unique hd'
      omega
    · rintro hno hpos ⟨h0, e, he, hd, h1, h2⟩
      have hne : dest + e ≠ src := hpos _ ⟨e, he, hd, rfl⟩
      have hle : dest + e < src + strnlen m src size + 1 := by
        split at h2 <;> omega
      refine ⟨h0, e, he, hd, ?_, hle⟩
      by_contra hge
      exact hno ⟨h0, e, he, _, hd, hs, by omega, by omega⟩

/-- A string of one character is copied to the address below it. -/
theorem overlap_detected_fails : ¬ ∀ (m : Bytes) (c : StringCall),
    (∀ p, c.Position m p → p ≠ c.src) → c.Meets m → c.Aborts m := by
  intro h
  have hs : StringAt sampleBytes 16 1 := ⟨by decide, rfl⟩
  have hmeets : (strcpy 15 16).Meets sampleBytes :=
    meets_strcpy.mpr ⟨1, by decide, hs, by decide, by decide⟩
  have hpos : ∀ p, (strcpy 15 16).Position sampleBytes p → p ≠ 16 := by
    rintro p rfl
    decide
  obtain ⟨-, -, -, hlt, -⟩ := aborts_strcpy.mp (h _ (strcpy 15 16) hpos hmeets)
  exact absurd hlt (by decide)

end Exact

end StringCall

end Duma.Strings

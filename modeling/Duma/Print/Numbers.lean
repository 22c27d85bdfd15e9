import Duma.Foundation.Numeral
import Duma.Model.Print

/-! # Rendered numbers

The loops of `sprintAddr` and `sprintLong` find the digits of a number from the last to the first. They
give up when the number has as many digits as the local buffer has room for.
-/

namespace Duma.Print

open Numeral

variable {base value n s dest i k : ℕ} {digits str : List UInt8} {f t : Frame} {z : ℤ}

section Copy

def Frame.Holds (f : Frame) (i : ℕ) (str : List UInt8) : Prop :=
  ∀ k (h : k < str.length), f.buffer (i + k) = str[k]

def Frame.copied (f : Frame) (i : ℕ) : List UInt8 → Frame
  | [] => f.put i 0
  | c :: rest => (f.put i c).copied (i + 1) rest

theorem Frame.Holds.eq {str' : List UInt8} (h : f.Holds i str) (h' : f.Holds i str')
    (hn : str.length = str'.length) : str = str' :=
  List.ext_getElem hn fun k h1 h2 => (h k h1).symm.trans (h' k h2)

theorem Frame.Holds.left {str' : List UInt8} (h : f.Holds i (str ++ str')) : f.Holds i str := by
  intro k hk
  rw [h k (by rw [List.length_append]; omega), List.getElem_append_left hk]

theorem strcpy_eq : strcpy i str f = .ok () (f.copied i str) := by
  induction str generalizing i f with
  | nil => rfl
  | cons c rest ih => exact (Wp.bind_of_ok (rfl : putChar i c f = .ok () (f.put i c))).trans ih

theorem Frame.copied_below {x : ℕ} (h : x < i) : (f.copied i str).buffer x = f.buffer x := by
  induction str generalizing i f with
  | nil => exact if_neg (by omega)
  | cons c rest ih => exact (ih (by omega)).trans (if_neg (by omega))

theorem Frame.copied_reach : (f.copied i str).reach = max f.reach (i + str.length + 1) := by
  induction str generalizing i f with
  | nil => rfl
  | cons c rest ih =>
    change ((f.put i c).copied (i + 1) rest).reach = _
    rw [ih]
    simp only [Frame.put, List.length_cons]
    omega

theorem Frame.copied_rest : (f.copied i str).args = f.args ∧ (f.copied i str).read = f.read ∧
    (f.copied i str).warnings = f.warnings := by
  induction str generalizing i f with
  | nil => exact ⟨rfl, rfl, rfl⟩
  | cons c rest ih => exact ih

theorem Frame.copied_holds : (f.copied i str).Holds i (str ++ [0]) := by
  induction str generalizing i f with
  | nil =>
    intro k hk
    obtain rfl : k = 0 := by simpa using hk
    exact if_pos rfl
  | cons c rest ih =>
    intro k hk
    cases k with
    | zero => exact (Frame.copied_below (Nat.lt_succ_self i)).trans (if_pos rfl)
    | succ k =>
      have := ih (i := i + 1) (f := f.put i c) k (by simpa using hk)
      rw [show i + (k + 1) = i + 1 + k by omega]
      exact this

end Copy

section Unsigned

/-- The numeral of a number, in lower-case letters. -/
def text (base n : ℕ) : List UInt8 := (numeral base n).map fun d : ℕ => digitChar d

def digitOf (base : ℕ) (c : UInt8) : Option ℕ :=
  let d : ℕ := if c.toNat < 58 then c.toNat - 48 else c.toNat - 87
  if digitChar (d : ℤ) = c ∧ d < base then some d else none

def readNumeral (base : ℕ) (str : List UInt8) : Option ℕ :=
  if str = [] then none else (str.mapM (digitOf base)).map (Numeral.value base)

theorem digitOf_digitChar (hb : base ≤ 36) (hd : n < base) : digitOf base (digitChar n) = some n := by
  have h : ∀ d : ℕ, d < 36 → digitOf 36 (digitChar d) = some d := by decide
  have h := h n (by omega)
  generalize digitChar (n : ℤ) = c at h ⊢
  unfold digitOf at h ⊢
  obtain ⟨hc, he⟩ := Option.ite_none_right_eq_some.mp h
  obtain rfl := Option.some.inj he
  exact if_pos ⟨hc.1, hd⟩

theorem length_text : (text base n).length = (numeral base n).length := List.length_map _

theorem text_ne_nil : text base n ≠ [] := fun h => numeral_ne_nil (List.map_eq_nil_iff.mp h)

theorem readNumeral_text (hb : 1 < base) (hb' : base ≤ 36) :
    readNumeral base (text base n) = some n := by
  have hmap : ∀ ds : List ℕ, (∀ d ∈ ds, d < base) →
      (ds.map fun d : ℕ => digitChar d).mapM (digitOf base) = some ds := by
    intro ds
    induction ds with
    | nil => exact fun _ => rfl
    | cons d ds ih =>
      intro hd
      rw [List.map_cons, List.mapM_cons, digitOf_digitChar hb' (hd d List.mem_cons_self),
        ih fun e he => hd e (List.mem_cons_of_mem d he)]
      rfl
  rw [readNumeral, if_neg text_ne_nil, text, hmap _ fun d hd => lt_of_mem_numeral hb hd,
    Option.map_some, value_numeral]

theorem addrDigits_eq (hb : 1 < base) : addrDigits base (s + 1) value digits =
    if (numeral base value).length ≤ s then some (text base value ++ digits) else none := by
  induction s generalizing value digits with
  | zero => exact (if_neg (by have := @length_numeral_pos base value; omega)).symm
  | succ s ih =>
    change (if s + 1 = 0 then none else
      if 0 < value / base then addrDigits base (s + 1) (value / base)
        (digitChar (value % base : ℕ) :: digits) else some (digitChar (value % base : ℕ) :: digits)) = _
    rw [if_neg (Nat.succ_ne_zero s), ih]
    by_cases h : value < base
    · rw [if_neg (by rw [Nat.div_eq_of_lt h]; decide), text, numeral_of_lt h, Nat.mod_eq_of_lt h]
      rfl
    · have hle : base ≤ value := not_lt.mp h
      rw [if_pos (Nat.div_pos hle (by omega)), text, text, numeral_of_le hb hle]
      simp only [List.length_append, List.length_singleton, Nat.add_le_add_iff_right, List.map_append,
        List.map_cons, List.map_nil, List.append_assoc, List.singleton_append]

/-- `sprintAddr` fails on the numbers with more than 63 digits. -/
theorem sprintAddr_eq (hb : 1 < base) : sprintAddr dest value base f =
    if value < base ^ 63 then .ok (text base value).length (f.copied dest (text base value))
    else .error .internalError f := by
  unfold sprintAddr
  rw [show numberBufferSize = 63 + 1 from rfl, addrDigits_eq hb]
  by_cases h : value < base ^ 63
  · rw [if_pos ((length_numeral_le_iff hb (by decide)).mpr h), if_pos h, List.append_nil]
    exact Wp.bind_of_ok strcpy_eq
  · rw [if_neg ((length_numeral_le_iff hb (by decide)).not.mpr h), if_neg h]
    rfl

/-- What is written is the canonical numeral of the value, and its length is returned. -/
def Renders (base value dest : ℕ) (f : Frame) : Prop :=
  ∃ ds t, sprintAddr dest value base f = .ok ds.length t ∧ Canonical base ds ∧
    t.Holds dest (ds.map (fun d : ℕ => digitChar d) ++ [0]) ∧
    readNumeral base (ds.map fun d : ℕ => digitChar d) = some value

/-- Only numbers with 64 digits in base 2 are not rendered: the loop stops at the first character of
its buffer. -/
theorem sprintAddr_renders_iff (hb : 2 ≤ base) (hb' : base ≤ 36) (hv : value < 2 ^ 64) :
    (Renders base value dest f ↔ base ≠ 2 ∨ value < 2 ^ 63) ∧
      (sprintAddr dest value base f = .error .internalError f ↔ base = 2 ∧ 2 ^ 63 ≤ value) := by
  have hiff : value < base ^ 63 ↔ base ≠ 2 ∨ value < 2 ^ 63 := by
    by_cases h2 : base = 2
    · subst h2
      simp
    · refine iff_of_true (hv.trans_le ?_) (Or.inl h2)
      exact (by decide : 2 ^ 64 ≤ 3 ^ 63).trans (Nat.pow_le_pow_left (by omega) 63)
  have hrun := @sprintAddr_eq base value dest f hb
  rw [← hiff, show (base = 2 ∧ 2 ^ 63 ≤ value) ↔ ¬ value < base ^ 63 by rw [hiff]; omega]
  by_cases h : value < base ^ 63
  · rw [if_pos h] at hrun
    refine ⟨iff_of_true ⟨numeral base value, f.copied dest (text base value), ?_,
      numeral_canonical hb value, Frame.copied_holds, readNumeral_text hb hb'⟩ h,
      iff_of_false ?_ (not_not.mpr h)⟩
    · rw [hrun, length_text]
    · rw [hrun]
      nofun
  · rw [if_neg h] at hrun
    refine ⟨iff_of_false ?_ h, iff_of_true hrun h⟩
    rintro ⟨ds, t, he, -⟩
    rw [hrun] at he
    cases he

/-- The largest number in base 36. -/
theorem sprintAddr_renders_max : Renders 36 (2 ^ 64 - 1) 0 (Frame.fresh (fun _ => 0) []) :=
  (sprintAddr_renders_iff (by decide) (by decide) (by decide)).1.mpr (Or.inl (by decide))

/-- A number with 64 binary digits ends the program. -/
theorem sprintAddr_renders_fails : ¬ ∀ base value dest f, 2 ≤ base → base ≤ 36 → value < 2 ^ 64 →
    Renders base value dest f ∧ sprintAddr dest value base f ≠ .error .internalError f := by
  intro h
  obtain ⟨-, hne⟩ := h 2 (2 ^ 63) 0 (Frame.fresh (fun _ => 0) []) (by decide) (by decide) (by decide)
  refine hne ?_
  rw [sprintAddr_eq (by decide), if_neg (by decide)]

end Unsigned

section Signed

def decimal (z : ℤ) : List UInt8 := if z < 0 then chr '-' :: text 10 z.natAbs else text 10 z.natAbs

/-- What the program makes of a `long`: the smallest one has no opposite. -/
def longText (z : ℤ) : List UInt8 := if z = -2 ^ 63 then chars "-(" else decimal z

/-- A decimal number read back: an optional minus sign and digits. -/
def readDecimal : List UInt8 → Option ℤ
  | [] => none
  | c :: rest =>
    if c = chr '-' then (readNumeral 10 rest).map fun n : ℕ => -(n : ℤ)
    else (readNumeral 10 (c :: rest)).map fun n : ℕ => (n : ℤ)

theorem longDigits_natCast : longDigits base s value digits = addrDigits base s value digits := by
  induction s generalizing value digits with
  | zero => rfl
  | succ s ih =>
    unfold longDigits addrDigits
    dsimp only
    rw [Int.tmod_eq_emod_of_nonneg (Int.natCast_nonneg value),
      Int.tdiv_eq_ediv_of_nonneg (Int.natCast_nonneg value), ← Int.natCast_mod, ← Int.natCast_div, ih]
    simp only [Int.natCast_pos]

theorem sprintLong_natCast (h : value < 10 ^ 63) : sprintLong dest value 10 f =
    .ok (text 10 value).length (f.copied dest (text 10 value)) := by
  have hrun : sprintAddr dest value 10 f = _ := (sprintAddr_eq (by decide)).trans (if_pos h)
  rw [← hrun]
  unfold sprintLong sprintAddr
  rw [show (10 : ℤ) = (10 : ℕ) from rfl, longDigits_natCast]

/-- The smallest `long` stays negative, and its last digit does too. -/
theorem sprintLong_min : sprintLong dest (-2 ^ 63) 10 f = .ok 1 (f.copied dest [chr '(']) := by
  have h : longDigits 10 numberBufferSize (-2 ^ 63) [] = some [chr '('] := by decide +kernel
  rw [sprintLong, h]
  exact Wp.bind_of_ok strcpy_eq

theorem putLong_eq {len : ℕ} (h : -2 ^ 63 ≤ z) (h' : z < 2 ^ 63) : putLong dest len z f =
    .ok (len + (longText z).length) (f.copied (dest + len) (longText z)) := by
  have hten : (2 : ℕ) ^ 63 < 10 ^ 63 := by decide
  have hput : putChar (dest + len) (chr '-') f = .ok () (f.put (dest + len) (chr '-')) := rfl
  have signed : ∀ str : List UInt8, len + (chr '-' :: str).length = len + 1 + str.length :=
    fun str => by rw [List.length_cons]; omega
  unfold putLong longText
  by_cases hz : z < 0
  · rw [if_pos hz]
    refine (Wp.bind_of_ok hput).trans ?_
    by_cases hmin : z = -2 ^ 63
    · have hneg : Word.toInt (-z) = -2 ^ 63 := by
        rw [hmin]
        decide
      rw [if_pos hmin, hneg]
      exact Wp.bind_of_ok sprintLong_min
    · have hneg : Word.toInt (-z) = (z.natAbs : ℤ) := by
        unfold Word.toInt
        rw [Int.bmod_eq_of_le] <;> omega
      rw [if_neg hmin, decimal, if_pos hz, hneg, signed]
      exact Wp.bind_of_ok (@sprintLong_natCast z.natAbs _ _ (by omega))
  · have hpos : z = (z.natAbs : ℤ) := by omega
    rw [if_neg hz, if_neg (by omega), decimal, if_neg hz]
    nth_rewrite 1 [hpos]
    exact Wp.bind_of_ok (@sprintLong_natCast z.natAbs _ _ (by omega))

theorem text_head (hb : 1 < base) (hb' : base ≤ 36) : (text base n).head? ≠ some (chr '-') := by
  have h : ∀ d : ℕ, d < 36 → digitChar d ≠ chr '-' := by decide
  rw [text, List.head?_map]
  intro he
  obtain ⟨d, hd, he⟩ := Option.map_eq_some_iff.mp he
  have := lt_of_mem_numeral hb (List.mem_of_mem_head? hd)
  exact h d (by omega) he

theorem readDecimal_decimal : readDecimal (decimal z) = some z := by
  unfold decimal
  split
  · next h =>
    rw [readDecimal, if_pos rfl, readNumeral_text (by decide) (by decide), Option.map_some]
    congr 1
    omega
  · next h =>
    cases ht : text 10 z.natAbs with
    | nil => exact absurd ht text_ne_nil
    | cons c rest =>
      have hc : c ≠ chr '-' := fun hc => @text_head 10 z.natAbs (by decide) (by decide)
        (by rw [ht, hc]; rfl)
      rw [readDecimal, if_neg hc, ← ht, readNumeral_text (by decide) (by decide), Option.map_some]
      congr 1
      omega

def CanonicalDecimal (z : ℤ) (str : List UInt8) : Prop :=
  ∃ ds, Canonical 10 ds ∧ (z < 0 → ds ≠ [0]) ∧
    str = (if z < 0 then [chr '-'] else []) ++ ds.map fun d : ℕ => digitChar d

theorem decimal_canonical : CanonicalDecimal z (decimal z) := by
  refine ⟨numeral 10 z.natAbs, numeral_canonical (by decide) _, fun h h0 => ?_, ?_⟩
  · have := @value_numeral 10 z.natAbs
    rw [h0] at this
    simp [value] at this
    omega
  · unfold decimal
    split
    exacts [rfl, rfl]

/-- A directive puts the numeral of the number into the buffer, wherever it stands. -/
def PrintsNumber (c : UInt8) (a : Arg) (z : ℤ) : Prop :=
  ∀ (warn : UInt8 → PrintM Unit) (dest len : ℕ) (f : Frame) (rest : List Arg), f.args = a :: rest →
    ∃ str t, directive warn dest c len f = .ok (len + str.length) t ∧ t.Holds (dest + len) str ∧
      CanonicalDecimal z str ∧ readDecimal str = some z

variable {warn : UInt8 → PrintM Unit} {len : ℕ} {a : Arg} {rest : List Arg}

theorem nextArg_eq (hf : f.args = a :: rest) : nextArg f = .ok a { f with args := rest } := by
  refine (Wp.bind_of_ok (rfl : (get : PrintM Frame) f = .ok f f)).trans ?_
  rw [hf]
  rfl

theorem directive_int (hf : f.args = .int z :: rest) : directive warn dest (chr 'i') len f =
    putLong dest len z { f with args := rest } := by
  rw [directive, if_neg (by decide), if_neg (by decide), if_neg (by decide), if_pos rfl]
  exact Wp.bind_of_ok (nextArg_eq hf)

theorem directive_long (hf : f.args = .long z :: rest) : directive warn dest (chr 'l') len f =
    putLong dest len z { f with args := rest } := by
  rw [directive, if_neg (by decide), if_neg (by decide), if_neg (by decide), if_neg (by decide),
    if_pos rfl]
  exact Wp.bind_of_ok (nextArg_eq hf)

theorem prints_of_putLong {c : UInt8} (h : -2 ^ 63 < z) (h' : z < 2 ^ 63)
    (hd : ∀ (warn : UInt8 → PrintM Unit) (dest len : ℕ) (f : Frame) (rest : List Arg),
      f.args = a :: rest → directive warn dest c len f = putLong dest len z { f with args := rest }) :
    PrintsNumber c a z := by
  intro warn dest len f rest hf
  refine ⟨decimal z, ({ f with args := rest } : Frame).copied (dest + len) (decimal z), ?_,
    Frame.copied_holds.left, decimal_canonical, readDecimal_decimal⟩
  rw [hd warn dest len f rest hf, putLong_eq h.le h', longText, if_neg h.ne']

/-- `%l` prints all numbers but the smallest, which has no opposite, and `%i` prints them all. -/
theorem signed_numbers_exact_iff (h : -2 ^ 63 ≤ z) (h' : z < 2 ^ 63) :
    (PrintsNumber (chr 'l') (.long z) z ↔ z ≠ -2 ^ 63) ∧
      (-2 ^ 31 ≤ z → z < 2 ^ 31 → PrintsNumber (chr 'i') (.int z) z) := by
  refine ⟨⟨?_, fun hz => ?_⟩, fun h h' => ?_⟩
  · rintro hp rfl
    obtain ⟨str, t, he, hh, -, hr⟩ := hp (fun _ => pure ()) 0 0
      (Frame.fresh (fun _ => 0) [.long (-2 ^ 63)]) [] rfl
    rw [directive_long rfl, putLong_eq h h', longText, if_pos rfl] at he
    obtain ⟨hlen, rfl⟩ := EStateM.Result.ok.inj he
    obtain rfl := hh.eq Frame.copied_holds.left (by omega)
    exact absurd hr (by decide +kernel)
  · exact prints_of_putLong (by omega) h' fun _ _ _ _ _ hf => directive_long hf
  · exact prints_of_putLong (by omega) (by omega) fun _ _ _ _ _ hf => directive_int hf

theorem signed_numbers_exact_sample : PrintsNumber (chr 'l') (.long (-12)) (-12) ∧
    PrintsNumber (chr 'i') (.int (-12)) (-12) := by
  obtain ⟨h, h'⟩ := @signed_numbers_exact_iff (-12) (by decide) (by decide)
  exact ⟨h.mpr (by decide), h' (by decide) (by decide)⟩

/-- The smallest `long` is printed as `-(`. -/
theorem signed_numbers_fails : ¬ ∀ z : ℤ, -2 ^ 63 ≤ z → z < 2 ^ 63 →
    PrintsNumber (chr 'l') (.long z) z := by
  intro h
  obtain ⟨str, t, he, hh, -, hr⟩ := h (-2 ^ 63) le_rfl (by decide) (fun _ => pure ()) 0 0
    (Frame.fresh (fun _ => 0) [.long (-2 ^ 63)]) [] rfl
  rw [directive_long rfl, putLong_eq le_rfl (by decide), longText, if_pos rfl] at he
  obtain ⟨hlen, rfl⟩ := EStateM.Result.ok.inj he
  obtain rfl := hh.eq Frame.copied_holds.left (by omega)
  exact absurd hr (by decide +kernel)

end Signed

end Duma.Print

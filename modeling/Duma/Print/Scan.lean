import Duma.Print.Numbers

/-! # The pattern interpreter

A pattern with its arguments is a list of pieces, and what the scan puts into the buffer is their
texts one behind the other. The scan holds one character ahead, and a `%` at the end of a pattern
makes it step over the terminator.
-/

namespace Duma.Print

open Numeral

variable {i dest len fuel : ℕ} {c : UInt8} {str str' p : List UInt8} {f t u : Frame}
variable {args rest : List Arg} {pattern stack : ℕ → UInt8}
variable {warn : UInt8 → PrintM Unit} {α β : Type} {m : PrintM α}

/-- What is printed at one place of a pattern. -/
inductive Piece
  | char (c : UInt8)
  | word (base n : ℕ)
  | long (z : ℤ)
  | string (s : List UInt8)
  | unknown
  deriving DecidableEq, Repr

variable {q : Piece} {ps : List Piece}

section Pieces

def Piece.text : Piece → List UInt8
  | .char c => [c]
  | .word base n => Print.text base n
  | .long z => longText z
  | .string s => s
  | .unknown => []

/-- The piece of the directive behind a `%`, and the arguments that are left. -/
def piece (c : UInt8) (args : List Arg) : Option (Piece × List Arg) :=
  if c = chr '%' then some (.char c, args)
  else if c = chr 'a' ∨ c = chr 'x' then
    match args with
    | .word n :: rest => some (.word 16 n, rest)
    | _ => none
  else if c = chr 'd' then
    match args with
    | .word n :: rest => some (.word 10 n, rest)
    | _ => none
  else if c = chr 'i' then
    match args with
    | .int n :: rest => some (.long n, rest)
    | _ => none
  else if c = chr 'l' then
    match args with
    | .long n :: rest => some (.long n, rest)
    | _ => none
  else if c = chr 's' then
    match args with
    | .string s :: rest => some (.string (s.getD (chars "NULL")), rest)
    | _ => none
  else if c = chr 'c' then
    match args with
    | .int n :: rest => some (.char (UInt8.ofNat (n % 256).toNat), rest)
    | _ => none
  else some (.unknown, args)

/-- The pieces of a pattern, if it gets the arguments that it asks for. A `%` at its end has none. -/
def pieces : List UInt8 → List Arg → Option (List Piece)
  | [], _ => some []
  | c :: rest, args =>
    if c = chr '%' then
      match rest with
      | [] => some []
      | d :: rest => do
        let (q, args) ← piece d args
        let ps ← pieces rest args
        return q :: ps
    else do
      let ps ← pieces rest args
      return .char c :: ps

/-- The pattern ends in the middle of a directive. -/
def cutOff : List UInt8 → Bool
  | [] => false
  | c :: rest =>
    if c = chr '%' then
      match rest with
      | [] => true
      | _ :: rest => cutOff rest
    else cutOff rest

/-- The scan comes to the end of the bytes: they have no terminator but as a directive. -/
def whole : List UInt8 → Bool
  | [] => true
  | c :: rest =>
    if c = chr '%' then
      match rest with
      | [] => false
      | _ :: rest => whole rest
    else decide (c ≠ 0) && whole rest

def Arg.Fits : Arg → Prop
  | .word n => n < 2 ^ 64
  | .int z => -2 ^ 31 ≤ z ∧ z < 2 ^ 31
  | .long z => -2 ^ 63 ≤ z ∧ z < 2 ^ 63
  | .string s => ∀ str ∈ s, 0 ∉ str

def Stands (pattern : ℕ → UInt8) (i : ℕ) : List UInt8 → Prop
  | [] => pattern i = 0
  | c :: rest => pattern i = c ∧ Stands pattern (i + 1) rest

theorem whole_cons (hc : c ≠ chr '%') : whole (c :: p) = (decide (c ≠ 0) && whole p) := by
  cases p with
  | nil => exact if_neg hc
  | cons d rest => exact if_neg hc

theorem whole_of_not_cutOff (h0 : 0 ∉ p) (h : cutOff p = false) : whole p = true := by
  fun_induction cutOff p with
  | case1 => rfl
  | case2 => cases h
  | case3 d rest ih =>
    exact ih (fun hm => h0 (List.mem_cons_of_mem _ (List.mem_cons_of_mem _ hm))) h
  | case4 c rest hc ih =>
    rw [whole_cons hc, ih (fun hm => h0 (List.mem_cons_of_mem _ hm)) h, Bool.and_true]
    exact decide_eq_true fun hz => h0 (hz ▸ List.mem_cons_self)

theorem piece_subset (h : piece c args = some (q, rest)) : rest ⊆ args := by
  unfold piece at h
  split_ifs at h <;> (try split at h) <;> first
    | exact absurd h (Option.some_ne_none _).symm
    | (obtain ⟨-, rfl⟩ := Prod.mk.inj (Option.some.inj h); simp)

theorem stands_literal : Stands (literal p) 0 p := by
  have : ∀ (p : List UInt8) pattern i, (∀ k, pattern (i + k) = p.getD k 0) → Stands pattern i p := by
    intro p
    induction p with
    | nil => exact fun _ _ h => h 0
    | cons c rest ih =>
      intro pattern i h
      refine ⟨h 0, ih _ _ fun k => ?_⟩
      rw [Nat.add_assoc, Nat.add_comm 1 k]
      exact h (k + 1)
  exact this p _ 0 fun k => congrArg (literal p) (Nat.zero_add k)

end Pieces

section Emitted

/-- Characters have been put into the buffer from index `i` on, and at most a terminator behind
them. -/
structure Emitted (f t : Frame) (i : ℕ) (str : List UInt8) : Prop where
  holds : t.Holds i str
  below : ∀ x < i, t.buffer x = f.buffer x
  reach : f.reach ≤ t.reach ∧ t.reach ≤ max f.reach (i + str.length + 1)
  warnings : ∃ w, t.warnings = w ++ f.warnings ∧ ∀ x ∈ w, x.2 ≤ stringBufferSize

theorem Emitted.append (h : Emitted f t i str) (h' : Emitted t u (i + str.length) str') :
    Emitted f u i (str ++ str') := by
  have hl := @List.length_append _ str str'
  obtain ⟨w, hw, hwb⟩ := h.warnings
  obtain ⟨w', hw', hwb'⟩ := h'.warnings
  refine ⟨fun k hk => ?_, fun x hx => ?_, ⟨h.reach.1.trans h'.reach.1, ?_⟩, w' ++ w, ?_, ?_⟩
  · by_cases hks : k < str.length
    · rw [h'.below _ (by omega), h.holds k hks, List.getElem_append_left hks]
    · have := h'.holds (k - str.length) (by omega)
      rw [List.getElem_append_right (not_lt.mp hks), ← this]
      congr 1
      omega
  · rw [h'.below x (by omega), h.below x hx]
  · have := h.reach.2
    have := h'.reach.2
    omega
  · rw [hw', hw, List.append_assoc]
  · intro x hx
    rcases List.mem_append.mp hx with hx | hx
    exacts [hwb' x hx, hwb x hx]

theorem emitted_put : Emitted f (f.put i c) i [c] := by
  refine ⟨fun k hk => ?_, fun x hx => if_neg (by omega), ⟨le_max_left _ _, ?_⟩, [], rfl, by simp⟩
  · obtain rfl : k = 0 := by simpa using hk
    exact if_pos rfl
  · exact max_le_max_left _ (Nat.le_succ _)

theorem emitted_copied : Emitted f (f.copied i str) i str := by
  refine ⟨Frame.copied_holds.left, fun x hx => Frame.copied_below hx, ?_, [], ?_, by simp⟩
  · rw [Frame.copied_reach]
    exact ⟨le_max_left _ _, le_rfl⟩
  · exact Frame.copied_rest.2.2

/-- A function that reports bad specifiers leaves the buffer and the arguments alone. -/
def Quiet (warn : UInt8 → PrintM Unit) : Prop :=
  ∀ c f, ∃ w, warn c f = .ok () { f with warnings := w ++ f.warnings } ∧
    ∀ x ∈ w, x.2 ≤ stringBufferSize

theorem Emitted.of_args (h : Emitted { f with args := rest } t i str) : Emitted f t i str :=
  ⟨h.holds, h.below, h.reach, h.warnings⟩

theorem emitted_nil : Emitted f f i [] :=
  ⟨fun k hk => absurd hk (Nat.not_lt_zero k), fun _ _ => rfl, ⟨le_rfl, le_max_left _ _⟩, [], rfl,
    by simp⟩

theorem sprintAddr_word {n base : ℕ} (hb : 10 ≤ base) (hn : n < 2 ^ 64) : sprintAddr i n base f =
    .ok (text base n).length (f.copied i (text base n)) := by
  have hlt : n < base ^ 63 := calc
    n < 2 ^ 64 := hn
    _ ≤ 10 ^ 63 := by decide
    _ ≤ base ^ 63 := Nat.pow_le_pow_left hb 63
  rw [sprintAddr_eq (by omega), if_pos hlt]

theorem directive_emits (hq : Quiet warn) (hp : piece c f.args = some (q, rest))
    (hf : ∀ a ∈ f.args, a.Fits) : ∃ t, directive warn dest c len f = .ok (len + q.text.length) t ∧
      Emitted f t (dest + len) q.text ∧ t.args = rest ∧ t.read = f.read := by
  have copied : ∀ (str : List UInt8) (a : Arg), f.args = a :: rest →
      Emitted f (({ f with args := rest } : Frame).copied (dest + len) str) (dest + len) str ∧
        (({ f with args := rest } : Frame).copied (dest + len) str).args = rest ∧
        (({ f with args := rest } : Frame).copied (dest + len) str).read = f.read := fun str a _ =>
    ⟨emitted_copied.of_args, Frame.copied_rest.1, Frame.copied_rest.2.1⟩
  unfold piece at hp
  unfold directive
  split at hp
  · next h =>
    obtain ⟨rfl, rfl⟩ := Prod.mk.inj (Option.some.inj hp)
    rw [if_pos h]
    exact ⟨f.put (dest + len) c, rfl, emitted_put, rfl, rfl⟩
  next h1 =>
  rw [if_neg h1]
  split at hp
  · next h =>
    rw [if_pos h]
    split at hp
    · next n rest' ha =>
      obtain ⟨rfl, rfl⟩ := Prod.mk.inj (Option.some.inj hp)
      have hn : Arg.Fits (.word n) := hf _ (ha ▸ List.mem_cons_self)
      refine ⟨_, (Wp.bind_of_ok (nextArg_eq ha)).trans ?_, copied (text 16 n) _ ha⟩
      exact Wp.bind_of_ok (sprintAddr_word (by decide) hn)
    · cases hp
  next h2 =>
  rw [if_neg h2]
  split at hp
  · next h =>
    rw [if_pos h]
    split at hp
    · next n rest' ha =>
      obtain ⟨rfl, rfl⟩ := Prod.mk.inj (Option.some.inj hp)
      have hn : Arg.Fits (.word n) := hf _ (ha ▸ List.mem_cons_self)
      refine ⟨_, (Wp.bind_of_ok (nextArg_eq ha)).trans ?_, copied (text 10 n) _ ha⟩
      exact Wp.bind_of_ok (sprintAddr_word (by decide) hn)
    · cases hp
  next h3 =>
  rw [if_neg h3]
  split at hp
  · next h =>
    rw [if_pos h]
    split at hp
    · next n rest' ha =>
      obtain ⟨rfl, rfl⟩ := Prod.mk.inj (Option.some.inj hp)
      have hn : Arg.Fits (.int n) := hf _ (ha ▸ List.mem_cons_self)
      refine ⟨_, (Wp.bind_of_ok (nextArg_eq ha)).trans ?_, copied (longText n) _ ha⟩
      exact putLong_eq (le_trans (by decide) hn.1) (hn.2.trans (by decide))
    · cases hp
  next h4 =>
  rw [if_neg h4]
  split at hp
  · next h =>
    rw [if_pos h]
    split at hp
    · next n rest' ha =>
      obtain ⟨rfl, rfl⟩ := Prod.mk.inj (Option.some.inj hp)
      have hn : Arg.Fits (.long n) := hf _ (ha ▸ List.mem_cons_self)
      refine ⟨_, (Wp.bind_of_ok (nextArg_eq ha)).trans ?_, copied (longText n) _ ha⟩
      exact putLong_eq hn.1 hn.2
    · cases hp
  next h5 =>
  rw [if_neg h5]
  split at hp
  · next h =>
    rw [if_pos h]
    split at hp
    · next s rest' ha =>
      obtain ⟨rfl, rfl⟩ := Prod.mk.inj (Option.some.inj hp)
      refine ⟨_, (Wp.bind_of_ok (nextArg_eq ha)).trans ?_, copied (s.getD (chars "NULL")) _ ha⟩
      exact Wp.bind_of_ok strcpy_eq
    · cases hp
  next h6 =>
  rw [if_neg h6]
  split at hp
  · next h =>
    rw [if_pos h]
    split at hp
    · next n rest' ha =>
      obtain ⟨rfl, rfl⟩ := Prod.mk.inj (Option.some.inj hp)
      exact ⟨({ f with args := rest' } : Frame).put (dest + len) _,
        (Wp.bind_of_ok (nextArg_eq ha)).trans rfl, emitted_put.of_args, rfl, rfl⟩
    · cases hp
  next h7 =>
  rw [if_neg h7]
  obtain ⟨rfl, rfl⟩ := Prod.mk.inj (Option.some.inj hp)
  obtain ⟨w, hw, hwb⟩ := hq c f
  exact ⟨_, Wp.bind_of_ok hw, ⟨emitted_nil.holds, emitted_nil.below, emitted_nil.reach, w, rfl, hwb⟩,
    rfl, rfl⟩

theorem fetch_next (hr : f.read = i) : fetch pattern i f = .ok (pattern i) { f with read := i + 1 } := by
  have h : fetch pattern i f = .ok (pattern i) { f with read := max f.read (i + 1) } := rfl
  rw [h, hr, max_eq_right (Nat.le_succ i)]

theorem scan_stop : scan warn pattern dest (fuel + 1) 0 i len f = .ok len f := rfl

theorem scan_char (h0 : c ≠ 0) (hc : c ≠ chr '%') : scan warn pattern dest (fuel + 1) c i len f =
    scan warn pattern dest fuel (pattern i) (i + 1) (len + 1)
      { f.put (dest + len) c with read := max f.read (i + 1) } := by
  rw [scan, if_neg h0, if_neg hc]
  rfl

theorem scan_directive : scan warn pattern dest (fuel + 1) (chr '%') i len f =
    (directive warn dest (pattern i) len >>= fun len =>
      fetch pattern (i + 1) >>= fun c => scan warn pattern dest fuel c (i + 2) len)
      { f with read := max f.read (i + 1) } := by
  rw [scan, if_neg (by decide), if_pos rfl]
  rfl

theorem Emitted.of_read {n : ℕ} (h : Emitted { f with read := n } t i str) : Emitted f t i str :=
  ⟨h.holds, h.below, h.reach, h.warnings⟩

theorem Emitted.to_read {n : ℕ} (h : Emitted f t i str) : Emitted f { t with read := n } i str :=
  ⟨h.holds, h.below, h.reach, h.warnings⟩

/-- The scan puts the texts of the pieces into the buffer and reads up to the terminator. -/
theorem scan_emits (hq : Quiet warn) (hp : Stands pattern i p) (hw : whole p = true)
    (hps : pieces p args = some ps) (hargs : f.args = args) (hf : ∀ a ∈ args, a.Fits)
    (hr : f.read = i + 1) (hn : p.length < fuel) :
    ∃ t, scan warn pattern dest fuel (pattern i) (i + 1) len f =
        .ok (len + (ps.flatMap Piece.text).length) t ∧
      Emitted f t (dest + len) (ps.flatMap Piece.text) ∧ t.read = i + p.length + 1 := by
  obtain ⟨fuel, rfl⟩ := Nat.exists_eq_add_of_lt (Nat.zero_lt_of_lt hn)
  rw [Nat.zero_add] at hn ⊢
  -- by the pieces of the pattern: one for each round of the scan
  fun_induction pieces p args generalizing f i len fuel ps with
  | case1 args =>
    obtain rfl := Option.some.inj hps
    rw [show pattern i = 0 from hp]
    exact ⟨f, scan_stop, emitted_nil, hr⟩
  | case2 => cases hw
  | case3 args d rest ih =>
    obtain ⟨⟨q, args'⟩, hq', hps⟩ := Option.bind_eq_some_iff.mp hps
    obtain ⟨ps', hps', hps⟩ := Option.bind_eq_some_iff.mp hps
    obtain rfl := Option.some.inj hps
    obtain ⟨h1, h2, h3⟩ := hp
    obtain ⟨fuel, rfl⟩ := Nat.exists_eq_add_of_lt (Nat.zero_lt_of_lt (Nat.lt_of_succ_lt_succ hn))
    have hd : ∃ t, directive warn dest d len { f with read := i + 2 } = .ok (len + q.text.length) t ∧
        Emitted { f with read := i + 2 } t (dest + len) q.text ∧ t.args = args' ∧ t.read = i + 2 :=
      directive_emits hq (hargs ▸ hq') (hargs ▸ hf)
    obtain ⟨t, ht, he, hta, htr⟩ := hd
    obtain ⟨u, hu, he', hur⟩ := @ih args' (i + 2) (len + q.text.length) { t with read := i + 3 } ps'
      h3 hw hps' hta (fun a ha => hf a (piece_subset hq' ha)) rfl fuel
      (by simp only [List.length_cons] at hn; omega)
    rw [List.flatMap_cons]
    refine ⟨u, ?_, ?_, ?_⟩
    · rw [h1, scan_directive, hr, max_eq_right (Nat.le_succ _), h2, Nat.zero_add,
        Wp.bind_of_ok ht]
      refine (Wp.bind_of_ok (fetch_next htr)).trans (hu.trans ?_)
      rw [List.length_append, Nat.add_assoc]
    · rw [← Nat.add_assoc] at he'
      exact Emitted.append he.of_read.to_read he'
    · rw [hur, List.length_cons, List.length_cons]
      omega
  | case4 c rest args hc ih =>
    obtain ⟨ps', hps', hps⟩ := Option.bind_eq_some_iff.mp hps
    obtain rfl := Option.some.inj hps
    obtain ⟨h1, h2⟩ := hp
    rw [whole_cons hc, Bool.and_eq_true, decide_eq_true_iff] at hw
    obtain ⟨fuel, rfl⟩ := Nat.exists_eq_add_of_lt (Nat.zero_lt_of_lt (Nat.lt_of_succ_lt_succ hn))
    obtain ⟨u, hu, he, hur⟩ := @ih (i + 1) (len + 1) { f.put (dest + len) c with read := i + 2 } ps'
      h2 hw.2 hps' hargs hf rfl fuel (by simp only [List.length_cons] at hn; omega)
    rw [List.flatMap_cons]
    refine ⟨u, ?_, ?_, ?_⟩
    · rw [h1, scan_char hw.1 hc, hr, max_eq_right (Nat.le_succ _), Nat.zero_add]
      refine hu.trans ?_
      rw [List.length_append, Nat.add_assoc]
      rfl
    · exact Emitted.append emitted_put.to_read he
    · rw [hur, List.length_cons]
      omega

theorem vsprintf_emits (hq : Quiet warn) (hp : Stands pattern 0 p) (hw : whole p = true)
    (hps : pieces p f.args = some ps) (hf : ∀ a ∈ f.args, a.Fits) (hr : f.read = 0)
    (hn : p.length < fuel) :
    ∃ t, vsprintf warn pattern dest fuel f = .ok (ps.flatMap Piece.text).length t ∧
      t.Holds dest (ps.flatMap Piece.text ++ [0]) ∧ (∀ x < dest, t.buffer x = f.buffer x) ∧
      t.reach = max f.reach (dest + (ps.flatMap Piece.text).length + 1) ∧ t.read = p.length + 1 ∧
      ∃ w, t.warnings = w ++ f.warnings ∧ ∀ x ∈ w, x.2 ≤ stringBufferSize := by
  have hs : ∃ t, scan warn pattern dest fuel (pattern 0) 1 0 { f with read := 1 } =
      .ok (0 + (ps.flatMap Piece.text).length) t ∧
      Emitted { f with read := 1 } t (dest + 0) (ps.flatMap Piece.text) ∧ t.read = 0 + p.length + 1 :=
    scan_emits hq hp hw hps rfl hf rfl hn
  obtain ⟨t, ht, he, htr⟩ := hs
  rw [Nat.zero_add] at ht htr
  have hu := he.of_read.append (@emitted_put (dest + (ps.flatMap Piece.text).length) 0 t)
  refine ⟨t.put (dest + (ps.flatMap Piece.text).length) 0, ?_, hu.holds, hu.below, ?_, htr,
    hu.warnings⟩
  · refine (Wp.bind_of_ok (fetch_next hr)).trans ?_
    refine (Wp.bind_of_ok ht).trans ?_
    rfl
  · have := he.reach
    simp only [Frame.put] at this ⊢
    omega

theorem Frame.Holds.output (h : t.Holds 0 (str ++ [0])) : t.output str.length = str := by
  refine List.ext_getElem (by simp [Frame.output]) fun k h1 h2 => ?_
  have := h k (by rw [List.length_append]; omega)
  rw [Nat.zero_add, List.getElem_append_left h2] at this
  simpa [Frame.output] using this

theorem pieces_cons (hc : c ≠ chr '%') :
    pieces (c :: p) args = (pieces p args).map (Piece.char c :: ·) := by
  have h : pieces (c :: p) args = (pieces p args).bind fun ps => some (.char c :: ps) := by
    cases p with
    | nil => exact if_neg hc
    | cons d rest => exact if_neg hc
  rw [h]
  cases pieces p args <;> rfl

theorem pieces_directive : pieces (chr '%' :: c :: p) args =
    (piece c args).bind fun r => (pieces p r.2).map (r.1 :: ·) := by
  rw [pieces, if_pos rfl]
  cases hq : piece c args with
  | none => rfl
  | some r =>
    change (pieces p r.2).bind _ = (pieces p r.2).map _
    cases pieces p r.2 <;> rfl

theorem pieces_append (hp : chr '%' ∉ p) (str : List UInt8) (args : List Arg) :
    pieces (p ++ str) args = (pieces str args).map (p.map Piece.char ++ ·) := by
  induction p with
  | nil => simp
  | cons c rest ih =>
    have hc : c ≠ chr '%' := fun h => hp (h ▸ List.mem_cons_self)
    have hrest : chr '%' ∉ rest := fun h => hp (List.mem_cons_of_mem _ h)
    rw [List.cons_append, pieces_cons hc, ih hrest, Option.map_map]
    rfl

theorem flatMap_text_char : (p.map Piece.char).flatMap Piece.text = p := by
  induction p with
  | nil => rfl
  | cons c rest ih => simpa [Piece.text] using ih

theorem pieces_badPattern (c : UInt8) : ∃ ps, pieces badPattern [.int c.toNat] = some ps ∧
    (ps.flatMap Piece.text).length = 49 := by
  have hsplit : badPattern = chars "\nDUMA: Bad pattern specifier " ++
      chr '%' :: chr '%' :: chr '%' :: chr 'c' :: chars " in DUMA_Print().\n" := by decide +kernel
  have hlead : chr '%' ∉ chars "\nDUMA: Bad pattern specifier " := by decide +kernel
  have htail : pieces (chars " in DUMA_Print().\n") [] =
      some ((chars " in DUMA_Print().\n").map Piece.char) := by decide +kernel
  have hpercent : piece (chr '%') [.int c.toNat] = some (.char (chr '%'), [.int c.toNat]) := rfl
  have hc : piece (chr 'c') [.int c.toNat] =
      some (.char (UInt8.ofNat ((c.toNat : ℤ) % 256).toNat), []) := rfl
  rw [hsplit, pieces_append hlead, pieces_directive, hpercent, Option.bind_some, pieces_directive,
    hc, Option.bind_some, htail]
  refine ⟨_, rfl, ?_⟩
  rw [List.flatMap_append, flatMap_text_char, List.flatMap_cons, List.flatMap_cons,
    flatMap_text_char]
  rfl

theorem warnBadPattern_quiet : Quiet (warnBadPattern stack) := by
  intro c f
  have hlt := c.toNat_lt
  have hc : Arg.Fits (.int c.toNat) := ⟨by omega, by omega⟩
  obtain ⟨ps, hps, hlen⟩ := pieces_badPattern c
  obtain ⟨t, ht, -, -, hreach, -⟩ := @vsprintf_emits 0 (badPattern.length + 1) badPattern
    (Frame.fresh stack [.int c.toNat]) (literal badPattern) (fun _ => pure ()) ps
    (fun c f => ⟨[], rfl, by simp⟩) stands_literal (by decide +kernel) hps
    (fun a ha => (List.mem_singleton.mp ha) ▸ hc) rfl (Nat.lt_succ_self _)
  refine ⟨[(t.output (ps.flatMap Piece.text).length, t.reach)], ?_, ?_⟩
  · unfold warnBadPattern
    rw [ht]
    rfl
  · intro x hx
    rw [List.mem_singleton.mp hx]
    change t.reach ≤ stringBufferSize
    rw [hreach, hlen]
    change max 0 (0 + 49 + 1) ≤ stringBufferSize
    decide

end Emitted

section Terminator

def Forward (m : PrintM α) : Prop :=
  ∀ f, Wp m (fun _ t => f.read ≤ t.read) (fun _ _ => True) f

theorem Forward.bind {k : α → PrintM β} (hm : Forward m) (hk : ∀ a, Forward (k a)) :
    Forward (m >>= k) := fun f =>
  (hm f).seq fun a t ht => (hk a t).mono (fun _ _ hu => le_trans ht hu) fun _ _ => id

theorem forward_pure (a : α) : Forward (pure a) := fun _ => le_refl _

theorem forward_throw (e : Halt) : Forward (throw e : PrintM α) := fun _ => trivial

theorem forward_modify {g : Frame → Frame} (h : ∀ f, f.read ≤ (g f).read) : Forward (modify g) := h

theorem Forward.ite {b : Prop} [Decidable b] {m' : PrintM α} (h : Forward m) (h' : Forward m') :
    Forward (if b then m else m') := by
  split
  exacts [h, h']

theorem forward_putChar : Forward (putChar i c) := forward_modify fun _ => le_rfl

theorem forward_strcpy : Forward (strcpy i str) := by
  induction str generalizing i with
  | nil => exact forward_putChar
  | cons c rest ih => exact forward_putChar.bind fun _ => ih

theorem forward_nextArg : Forward nextArg := by
  intro f
  unfold nextArg
  rw [Wp.bind_iff, Wp.get_iff]
  split
  · exact forward_throw _ f
  · next a rest ha =>
    exact Wp.bind_iff.mpr (le_refl f.read)

theorem forward_sprintAddr {n base : ℕ} : Forward (sprintAddr i n base) := by
  unfold sprintAddr
  split
  · exact forward_throw _
  · exact forward_strcpy.bind fun _ => forward_pure _

theorem forward_sprintLong {n base : ℤ} : Forward (sprintLong i n base) := by
  unfold sprintLong
  split
  · exact forward_throw _
  · exact forward_strcpy.bind fun _ => forward_pure _

theorem forward_putLong {n : ℤ} : Forward (putLong dest len n) :=
  (forward_putChar.bind fun _ => forward_sprintLong.bind fun _ => forward_pure _).ite
    (forward_sprintLong.bind fun _ => forward_pure _)

theorem forward_directive (hq : Quiet warn) : Forward (directive warn dest c len) := by
  have hw : Forward (warn c) := fun f => by
    obtain ⟨w, hw, -⟩ := hq c f
    exact Wp.of_ok hw le_rfl
  have taken : ∀ k : Arg → PrintM ℕ, (∀ a, Forward (k a)) → Forward (nextArg >>= k) :=
    fun k => forward_nextArg.bind
  unfold directive
  refine (forward_putChar.bind fun _ => forward_pure _).ite ?_
  refine (taken _ fun a => ?_).ite ?_
  · cases a <;> first | exact forward_sprintAddr.bind fun _ => forward_pure _ | exact forward_throw _
  refine (taken _ fun a => ?_).ite ?_
  · cases a <;> first | exact forward_sprintAddr.bind fun _ => forward_pure _ | exact forward_throw _
  refine (taken _ fun a => ?_).ite ?_
  · cases a <;> first | exact forward_putLong | exact forward_throw _
  refine (taken _ fun a => ?_).ite ?_
  · cases a <;> first | exact forward_putLong | exact forward_throw _
  refine (taken _ fun a => ?_).ite ?_
  · cases a <;> first | exact forward_strcpy.bind fun _ => forward_pure _ | exact forward_throw _
  refine (taken _ fun a => ?_).ite ?_
  · cases a <;> first | exact forward_putChar.bind fun _ => forward_pure _ | exact forward_throw _
  exact hw.bind fun _ => forward_pure _

theorem forward_fetch : Forward (fetch pattern i) :=
  (forward_modify fun _ => le_max_left _ _).bind fun _ => forward_pure _

theorem forward_scan (hq : Quiet warn) : Forward (scan warn pattern dest fuel c i len) := by
  induction fuel generalizing c i len with
  | zero => exact forward_throw _
  | succ fuel ih =>
    refine (forward_pure _).ite (Forward.ite ?_ ?_)
    · exact forward_fetch.bind fun _ => (forward_directive hq).bind fun _ =>
        forward_fetch.bind fun _ => ih
    · exact forward_putChar.bind fun _ => forward_fetch.bind fun _ => ih

/-- The scan of a pattern that ends in the middle of a directive goes on behind the terminator. -/
theorem scan_beyond (hq : Quiet warn) (hp : Stands pattern i p) (h0 : 0 ∉ p) (hc : cutOff p = true) :
    Wp (scan warn pattern dest fuel (pattern i) (i + 1) len) (fun _ t => i + p.length + 2 ≤ t.read)
      (fun _ _ => True) f := by
  fun_induction cutOff p generalizing i len fuel f with
  | case1 => cases hc
  | case2 =>
    cases fuel with
    | zero => exact trivial
    | succ fuel =>
      refine Wp.of_eq (hp.1 ▸ scan_directive) ?_
      refine (forward_directive hq _).seq fun len t _ => ?_
      refine (forward_scan hq _).mono (fun _ _ hu => le_trans ?_ hu) fun _ _ => id
      exact le_max_right t.read (i + 2 + 1)
  | case3 d rest ih =>
    cases fuel with
    | zero => exact trivial
    | succ fuel =>
      refine Wp.of_eq (hp.1 ▸ scan_directive) ?_
      refine (forward_directive hq _).seq fun len t _ => ?_
      have h0' : 0 ∉ rest := fun hm => h0 (List.mem_cons_of_mem _ (List.mem_cons_of_mem _ hm))
      refine (ih hp.2.2 h0' hc).post fun _ u hu => ?_
      rw [List.length_cons, List.length_cons]
      omega
  | case4 c rest hc' ih =>
    cases fuel with
    | zero => exact trivial
    | succ fuel =>
      have hz : c ≠ 0 := fun hz => h0 (hz ▸ List.mem_cons_self)
      refine Wp.of_eq (hp.1 ▸ scan_char hz hc') ?_
      refine (ih hp.2 (fun hm => h0 (List.mem_cons_of_mem _ hm)) hc).post fun _ u hu => ?_
      rw [List.length_cons]
      omega

theorem vsprintf_beyond (hq : Quiet warn) (hp : Stands pattern 0 p) (h0 : 0 ∉ p)
    (hc : cutOff p = true) :
    Wp (vsprintf warn pattern dest fuel) (fun _ t => p.length + 2 ≤ t.read) (fun _ _ => True) f := by
  refine (scan_beyond hq hp h0 hc).seq fun len u hu => ?_
  rw [Nat.zero_add] at hu
  exact hu

/-- With its arguments and enough room, a pattern is printed piece by piece and no byte behind its
terminator is read, unless it ends in the middle of a directive. -/
theorem vsprintf_reads_pattern_iff (h0 : 0 ∉ p) (hp : Stands pattern 0 p)
    (hps : pieces p args = some ps) (hf : ∀ a ∈ args, a.Fits) (buffer : ℕ → UInt8) :
    (∃ fuel t, vsprintf (warnBadPattern stack) pattern dest fuel (Frame.fresh buffer args) =
        .ok (ps.flatMap Piece.text).length t ∧
      t.Holds dest (ps.flatMap Piece.text ++ [0]) ∧ t.read ≤ p.length + 1) ↔ cutOff p = false := by
  constructor
  · rintro ⟨fuel, t, ht, -, hr⟩
    by_contra hc
    rw [Bool.not_eq_false] at hc
    have := (vsprintf_beyond warnBadPattern_quiet hp h0 hc).returns ht
    omega
  · intro hc
    obtain ⟨t, ht, hh, -, -, hr, -⟩ := @vsprintf_emits dest (p.length + 1) p
      (Frame.fresh buffer args) pattern _ ps (@warnBadPattern_quiet stack) hp
      (whole_of_not_cutOff h0 hc) hps hf rfl (Nat.lt_succ_self _)
    exact ⟨_, t, ht, hh, hr.le⟩

/-- A pattern with a bad specifier, which prints nothing. -/
theorem vsprintf_reads_pattern_sample : ∃ fuel t,
    vsprintf (warnBadPattern fun _ => 0) (literal (chars "%s: %q%d%%\n")) 0 fuel
        (Frame.fresh (fun _ => 7) [.string none, .word 42]) = .ok 10 t ∧
      t.Holds 0 (chars "NULL: 42%\n" ++ [0]) ∧ t.read ≤ 12 := by
  have hps : pieces (chars "%s: %q%d%%\n") [.string none, .word 42] =
      some [.string (chars "NULL"), .char (chr ':'), .char (chr ' '), .unknown, .word 10 42,
        .char (chr '%'), .char (chr '\n')] := by decide +kernel
  have ht : ([.string (chars "NULL"), .char (chr ':'), .char (chr ' '), .unknown, .word 10 42,
      .char (chr '%'), .char (chr '\n')] : List Piece).flatMap Piece.text = chars "NULL: 42%\n" := by
    decide +kernel
  have hn : (chars "NULL: 42%\n").length = 10 := by decide +kernel
  have hp : (chars "%s: %q%d%%\n").length = 11 := by decide +kernel
  have hf : ∀ a ∈ [Arg.string none, Arg.word 42], a.Fits := by simp [Arg.Fits]
  have h := (@vsprintf_reads_pattern_iff 0 _ _ _ (fun _ => 0) _ (by decide +kernel) stands_literal
    hps hf fun _ => 7).mpr (by decide +kernel)
  rwa [ht, hn, hp] at h

/-- A lone `%` is read together with its terminator. -/
theorem vsprintf_reads_pattern_fails : ¬ ∀ (p : List UInt8) (pattern : ℕ → UInt8) (args : List Arg)
    (ps : List Piece) (buffer stack : ℕ → UInt8) (dest : ℕ), 0 ∉ p → Stands pattern 0 p →
    pieces p args = some ps → (∀ a ∈ args, a.Fits) →
      ∃ fuel t, vsprintf (warnBadPattern stack) pattern dest fuel (Frame.fresh buffer args) =
          .ok (ps.flatMap Piece.text).length t ∧
        t.Holds dest (ps.flatMap Piece.text ++ [0]) ∧ t.read ≤ p.length + 1 := by
  intro h
  obtain ⟨fuel, t, ht, -, hr⟩ := h [chr '%'] (literal [chr '%']) [] [] (fun _ => 0) (fun _ => 0) 0
    (by decide) stands_literal rfl (by simp)
  have := (vsprintf_beyond warnBadPattern_quiet stands_literal (by decide) rfl).returns ht
  omega

end Terminator

end Duma.Print

import Duma.Print.Scan
import Duma.Strings.Loops
import Mathlib.Data.List.TakeWhile

/-! # The string buffers

`DUMA_Print`, `DUMA_Abort` and `DUMA_Exit` put a message together in a local buffer of 4096
bytes. No routine is told how much room is left.
-/

namespace Duma.Print

open Numeral

variable {fuel n : ℕ} {lead str p : List UInt8} {f t : Frame} {args : List Arg} {ps : List Piece}
variable {pattern stack buffer : ℕ → UInt8}

def Piece.width : Piece → ℕ
  | .char _ => 1
  | .word base n => (numeral base n).length
  | .long z =>
    if z = -2 ^ 63 then 2 else (if z < 0 then 1 else 0) + (numeral 10 z.natAbs).length
  | .string s => s.length
  | .unknown => 0

def width (ps : List Piece) : ℕ := (ps.map Piece.width).sum

theorem Piece.text_length {q : Piece} : q.text.length = q.width := by
  cases q with
  | char c => rfl
  | word base n => exact length_text
  | long z =>
    simp only [Piece.text, Piece.width, longText, decimal]
    split_ifs
    · decide +kernel
    · rw [List.length_cons, length_text, Nat.add_comm]
    · rw [length_text, Nat.zero_add]
  | string s => rfl
  | unknown => rfl

theorem length_flatMap_text : (ps.flatMap Piece.text).length = width ps := by
  rw [List.length_flatMap, width]
  congr 2
  funext q
  exact Piece.text_length

section Zeros

/-- The pieces of the pattern have numbers in base 10 and 16, and strings without zeros. -/
def Piece.Plain : Piece → Prop
  | .word base _ => 1 < base ∧ base ≤ 36
  | .string s => 0 ∉ s
  | _ => True

theorem zero_not_mem_text {base : ℕ} (hb : 1 < base) (hb' : base ≤ 36) : 0 ∉ text base n := by
  have h : ∀ d : ℕ, d < 36 → digitChar d ≠ 0 := by decide
  intro hm
  obtain ⟨d, hd, he⟩ := List.mem_map.mp hm
  exact h d ((lt_of_mem_numeral hb hd).trans_le hb') he

theorem Piece.Plain.zero_mem_text {q : Piece} (h : q.Plain) : 0 ∈ q.text ↔ q = .char 0 := by
  cases q with
  | char c => simp only [Piece.text, List.mem_singleton, Piece.char.injEq, eq_comm]
  | word base n => exact iff_of_false (zero_not_mem_text h.1 h.2) Piece.noConfusion
  | long z =>
    refine iff_of_false ?_ Piece.noConfusion
    have hd := @zero_not_mem_text z.natAbs 10 (by decide) (by decide)
    simp only [Piece.text, longText, decimal]
    split_ifs
    · decide +kernel
    · exact fun hm => hd ((List.mem_cons.mp hm).resolve_left (by decide))
    · exact hd
  | string s => exact iff_of_false h Piece.noConfusion
  | unknown => exact iff_of_false List.not_mem_nil Piece.noConfusion

theorem piece_plain {c : UInt8} {q : Piece} {rest : List Arg} (h : piece c args = some (q, rest))
    (hf : ∀ a ∈ args, a.Fits) : q.Plain := by
  unfold piece at h
  split_ifs at h <;> (try split at h) <;> try exact absurd h (Option.some_ne_none _).symm
  all_goals obtain ⟨rfl, rfl⟩ := Prod.mk.inj (Option.some.inj h)
  all_goals try exact trivial
  · exact ⟨by decide, by decide⟩
  · exact ⟨by decide, by decide⟩
  · next s rest =>
    have hs : Arg.Fits (.string s) := hf _ List.mem_cons_self
    cases s with
    | none => exact (by decide +kernel : 0 ∉ chars "NULL")
    | some str => exact hs str rfl

theorem pieces_plain (h : pieces p args = some ps) (hf : ∀ a ∈ args, a.Fits) : ∀ q ∈ ps, q.Plain := by
  fun_induction pieces p args generalizing ps with
  | case1 =>
    obtain rfl := Option.some.inj h
    exact List.forall_mem_nil _
  | case2 =>
    obtain rfl := Option.some.inj h
    exact List.forall_mem_nil _
  | case3 args d rest ih =>
    obtain ⟨⟨q, args'⟩, hq, h⟩ := Option.bind_eq_some_iff.mp h
    obtain ⟨ps', hps', h⟩ := Option.bind_eq_some_iff.mp h
    obtain rfl := Option.some.inj h
    exact List.forall_mem_cons.mpr
      ⟨piece_plain hq hf, ih args' hps' fun a ha => hf a (piece_subset hq ha)⟩
  | case4 c rest args hc ih =>
    obtain ⟨ps', hps', h⟩ := Option.bind_eq_some_iff.mp h
    obtain rfl := Option.some.inj h
    exact List.forall_mem_cons.mpr ⟨trivial, ih hps' hf⟩

theorem zero_mem_flatMap (h : ∀ q ∈ ps, q.Plain) : 0 ∈ ps.flatMap Piece.text ↔ .char 0 ∈ ps := by
  rw [List.mem_flatMap]
  constructor
  · rintro ⟨q, hq, h0⟩
    exact (h q hq).zero_mem_text.mp h0 ▸ hq
  · exact fun hm => ⟨.char 0, hm, List.mem_singleton_self 0⟩

end Zeros

section Messages

/-- The string that the bytes are, up to the first zero. -/
def cString (str : List UInt8) : List UInt8 := str.takeWhile fun c => c ≠ 0

theorem zero_not_mem_cString : 0 ∉ cString str := by
  intro hm
  have := List.mem_takeWhile_imp hm
  exact of_decide_eq_true this rfl

theorem cString_eq (h : 0 ∉ str) : cString str = str :=
  List.takeWhile_eq_self_iff.mpr fun _ hc => decide_eq_true fun h0 => h (h0 ▸ hc)

theorem cString_append : ∃ str', str ++ [0] = cString str ++ [0] ++ str' := by
  induction str with
  | nil => exact ⟨[], rfl⟩
  | cons c rest ih =>
    obtain ⟨str', ih⟩ := ih
    by_cases hc : c = 0
    · exact ⟨rest ++ [0], by simp [cString, hc]⟩
    · refine ⟨str', ?_⟩
      have : cString (c :: rest) = c :: cString rest := by simp [cString, hc]
      rw [this, List.cons_append, ih]
      rfl

theorem length_cString_lt (h : 0 ∈ str) : (cString str).length < str.length := by
  refine lt_of_le_of_ne (List.takeWhile_prefix _).length_le fun he => ?_
  have : cString str = str := (List.takeWhile_prefix _).eq_of_length he
  rw [← this] at h
  exact zero_not_mem_cString h

theorem strlen_eq (h : f.Holds 0 (str ++ [0])) (h0 : 0 ∉ str) (hr : str.length < f.reach) :
    strlen f = .ok str.length f := by
  have hs : Strings.StringAt f.buffer 0 str.length := by
    refine ⟨fun k hk => ?_, ?_⟩
    · rw [h k (by rw [List.length_append]; omega), List.getElem_append_left hk]
      exact fun hz => h0 (hz ▸ List.getElem_mem hk)
    · rw [h str.length (by simp), List.getElem_append_right le_rfl]
      simp
  refine (Wp.bind_of_ok (rfl : (get : PrintM Frame) f = .ok f f)).trans ?_
  rw [hs.strlenWithin hr]
  rfl

theorem Frame.Holds.append {i : ℕ} {str' : List UInt8} (h : f.Holds i str)
    (h' : f.Holds (i + str.length) str') : f.Holds i (str ++ str') := by
  intro k hk
  rw [List.length_append] at hk
  by_cases hks : k < str.length
  · rw [h k hks, List.getElem_append_left hks]
  · rw [List.getElem_append_right (not_lt.mp hks), ← h' (k - str.length) (by omega)]
    congr 1
    omega

theorem Frame.Holds.of_below {i : ℕ} (h : f.Holds i str)
    (hb : ∀ x < i + str.length, t.buffer x = f.buffer x) : t.Holds i str :=
  fun k hk => (hb _ (Nat.add_lt_add_left hk i)).trans (h k hk)

theorem DUMA_Print_eq (hp : Stands pattern 0 p) (hw : whole p = true) (hps : pieces p args = some ps)
    (hf : ∀ a ∈ args, a.Fits) (hn : p.length < fuel) :
    ∃ t, DUMA_Print stack pattern fuel (Frame.fresh buffer args) = .ok (ps.flatMap Piece.text) t ∧
      t.reach = width ps + 1 ∧ ∀ w ∈ t.warnings, w.2 ≤ stringBufferSize := by
  obtain ⟨t, ht, hh, -, hr, -, w, hw, hwb⟩ := @vsprintf_emits 0 fuel p (Frame.fresh buffer args)
    pattern _ ps (@warnBadPattern_quiet stack) hp hw hps hf rfl hn
  refine ⟨t, ?_, ?_, ?_⟩
  · refine (Wp.bind_of_ok ht).trans ?_
    refine (Wp.bind_of_ok (rfl : (get : PrintM Frame) t = .ok t t)).trans ?_
    rw [hh.output]
    rfl
  · rw [hr, length_flatMap_text, Nat.zero_add]
    exact Nat.zero_max _
  · rw [hw]
    exact fun x hx => hwb x ((List.mem_append.mp hx).resolve_right List.not_mem_nil)

theorem pieces_string : pieces (chars "%s") [.string (some str)] = some [.string str] := by
  rw [show chars "%s" = [chr '%', chr 's'] by decide +kernel]
  rfl

theorem lastWords_eq (hlead : 0 ∉ lead) (hp : Stands pattern 0 p) (hw : whole p = true)
    (hps : pieces p args = some ps) (hf : ∀ a ∈ args, a.Fits) (hn : p.length < fuel) :
    ∃ t, lastWords lead stack pattern fuel (Frame.fresh buffer args) =
        .ok (lead ++ cString (ps.flatMap Piece.text) ++ chars "\n",
          lead.length + (cString (ps.flatMap Piece.text)).length + 2) t ∧
      t.reach = max (lead.length + width ps + 1)
        (lead.length + (cString (ps.flatMap Piece.text)).length + 2) ∧
      ∀ w ∈ t.warnings, w.2 ≤ stringBufferSize := by
  set out := ps.flatMap Piece.text with hout
  have hline : chars "\n" = [10] := by decide +kernel
  have h1 : ((Frame.fresh buffer args).copied 0 lead).Holds 0 (lead ++ [0]) := Frame.copied_holds
  have hr1 : ((Frame.fresh buffer args).copied 0 lead).reach = lead.length + 1 := by
    rw [Frame.copied_reach]
    exact (Nat.zero_max _).trans (by rw [Nat.zero_add])
  have hl1 := strlen_eq h1 hlead (by omega)
  obtain ⟨hargs, hread, hwarn⟩ := @Frame.copied_rest 0 lead (Frame.fresh buffer args)
  obtain ⟨t, ht, hh, hb, hr, -, w, hwt, hwb⟩ := @vsprintf_emits lead.length fuel p
    ((Frame.fresh buffer args).copied 0 lead) pattern _ ps (@warnBadPattern_quiet stack) hp hw
    (hargs ▸ hps) (hargs ▸ hf) hread hn
  obtain ⟨tail, htail⟩ := @cString_append out
  have h2 : t.Holds 0 (lead ++ cString out ++ [0]) := by
    have := (h1.left.of_below fun x hx => hb x (by omega)).append (by rwa [Nat.zero_add])
    rw [← hout, htail, ← List.append_assoc, ← List.append_assoc] at this
    exact this.left
  have h0 : 0 ∉ lead ++ cString out := fun hm =>
    (List.mem_append.mp hm).elim hlead zero_not_mem_cString
  have hlen : (lead ++ cString out).length = lead.length + (cString out).length := List.length_append
  have hle : (cString out).length ≤ out.length := (List.takeWhile_prefix _).length_le
  have hl2 := strlen_eq h2 h0 (by rw [hr, hr1, ← hout]; omega)
  have h3 : (t.copied (lead ++ cString out).length (chars "\n")).Holds 0
      (lead ++ cString out ++ chars "\n" ++ [0]) := by
    rw [List.append_assoc]
    refine (h2.left.of_below fun x hx => Frame.copied_below (by omega)).append ?_
    rw [Nat.zero_add]
    exact Frame.copied_holds
  have h0' : 0 ∉ lead ++ cString out ++ chars "\n" := fun hm =>
    (List.mem_append.mp hm).elim h0 (by decide +kernel)
  have hr3 : (t.copied (lead ++ cString out).length (chars "\n")).reach =
      max (lead.length + width ps + 1) (lead.length + (cString out).length + 2) := by
    rw [Frame.copied_reach, hr, hr1, hlen, hline, ← length_flatMap_text, ← hout]
    simp only [List.length_singleton]
    omega
  have hl3 := strlen_eq h3 h0' (by
    rw [hr3, List.length_append, hlen, hline, List.length_singleton]
    omega)
  have hs : ∀ a ∈ [Arg.string (some (lead ++ cString out ++ chars "\n"))], a.Fits :=
    List.forall_mem_singleton.mpr fun str hstr => Option.some.inj hstr ▸ h0'
  obtain ⟨v, hv, hvr, -⟩ := @DUMA_Print_eq 3 (chars "%s") _
    [.string (lead ++ cString out ++ chars "\n")] (literal (chars "%s")) stack stack
    stands_literal (by decide +kernel) pieces_string hs (by decide +kernel)
  refine ⟨t.copied (lead ++ cString out).length (chars "\n"), ?_, hr3, ?_⟩
  · refine (Wp.bind_of_ok strcpy_eq).trans ((Wp.bind_of_ok hl1).trans ?_)
    refine (Wp.bind_of_ok ht).trans ((Wp.bind_of_ok hl2).trans ?_)
    refine (Wp.bind_of_ok strcpy_eq).trans ?_
    refine (Wp.bind_of_ok (rfl : (get : PrintM Frame) _ = .ok _ _)).trans ?_
    refine (Wp.bind_of_ok hl3).trans ?_
    rw [h3.output, hv, List.flatMap_singleton]
    have hw : width [.string (lead ++ cString out ++ chars "\n")] + 1 =
        lead.length + (cString out).length + 2 := by
      simp only [width, List.map_cons, List.map_nil, List.sum_cons, List.sum_nil, Piece.width,
        List.length_append, hline, List.length_singleton]
      omega
    rw [← hw, ← hvr]
    rfl
  · rw [Frame.copied_rest.2.2, hwt, hwarn]
    exact fun x hx => hwb x ((List.mem_append.mp hx).resolve_right List.not_mem_nil)

/-- All that was written to the buffer, and to those of the messages about bad specifiers, is in
them. -/
def Frame.Within (f : Frame) : Prop :=
  f.reach ≤ stringBufferSize ∧ ∀ w ∈ f.warnings, w.2 ≤ stringBufferSize

/-- `DUMA_Print` writes inside its buffer, whatever the stack holds and however many rounds more than
`n` the scan may have. -/
def PrintWithin (pattern : ℕ → UInt8) (n : ℕ) (args : List Arg) : Prop :=
  ∀ stack buffer fuel, n < fuel →
    ∃ out t, DUMA_Print stack pattern fuel (Frame.fresh buffer args) = .ok out t ∧ t.Within

/-- A function that ends the process writes inside its buffer, and so does the `DUMA_Print` in it. -/
def LastWithin (last : (ℕ → UInt8) → (ℕ → UInt8) → ℕ → PrintM (List UInt8 × ℕ))
    (pattern : ℕ → UInt8) (n : ℕ) (args : List Arg) : Prop :=
  ∀ stack buffer fuel, n < fuel →
    ∃ out reach t, last stack pattern fuel (Frame.fresh buffer args) = .ok (out, reach) t ∧
      t.Within ∧ reach ≤ stringBufferSize

theorem printWithin_iff (hp : Stands pattern 0 p) (hw : whole p = true)
    (hps : pieces p args = some ps) (hf : ∀ a ∈ args, a.Fits) :
    PrintWithin pattern p.length args ↔ width ps + 1 ≤ 4096 := by
  constructor
  · intro h
    obtain ⟨out, t, ht, hr, -⟩ := h (fun _ => 0) (fun _ => 0) _ (Nat.lt_succ_self _)
    obtain ⟨u, hu, hur, -⟩ := DUMA_Print_eq hp hw hps hf (Nat.lt_succ_self _)
    obtain ⟨rfl, rfl⟩ := EStateM.Result.ok.inj (ht.symm.trans hu)
    exact hur ▸ hr
  · intro h stack buffer fuel hn
    obtain ⟨t, ht, hr, hwarn⟩ := DUMA_Print_eq hp hw hps hf hn
    exact ⟨_, t, ht, hr ▸ h, hwarn⟩

/-- The last byte that is written is the terminator behind the line feed, or the one of the message
if the line feed is put before it. -/
theorem lastWithin_iff (hlead : 0 ∉ lead) (hp : Stands pattern 0 p) (hw : whole p = true)
    (hps : pieces p args = some ps) (hf : ∀ a ∈ args, a.Fits) :
    LastWithin (lastWords lead) pattern p.length args ↔
      lead.length + width ps + (if .char 0 ∈ ps then 1 else 2) ≤ 4096 := by
  have hreach : max (lead.length + width ps + 1)
      (lead.length + (cString (ps.flatMap Piece.text)).length + 2) =
      lead.length + width ps + (if .char 0 ∈ ps then 1 else 2) := by
    have hz := zero_mem_flatMap (pieces_plain hps hf)
    have hl := @length_flatMap_text ps
    split
    · next h =>
      have := length_cString_lt (hz.mpr h)
      omega
    · next h =>
      rw [cString_eq (hz.not.mpr h)]
      omega
  constructor
  · intro h
    obtain ⟨out, reach, t, ht, ⟨hr, -⟩, -⟩ := h (fun _ => 0) (fun _ => 0) _ (Nat.lt_succ_self _)
    obtain ⟨u, hu, hur, -⟩ := lastWords_eq hlead hp hw hps hf (Nat.lt_succ_self _)
    obtain ⟨-, rfl⟩ := EStateM.Result.ok.inj (ht.symm.trans hu)
    rw [← hreach, ← hur]
    exact hr
  · intro h stack buffer fuel hn
    obtain ⟨t, ht, hr, hwarn⟩ := lastWords_eq hlead hp hw hps hf hn
    rw [← hreach] at h
    exact ⟨_, _, t, ht, ⟨hr ▸ h, hwarn⟩, le_trans (le_max_right _ _) h⟩

/-- The buffers of the three functions are kept exactly by the messages that are short enough for
them. -/
theorem buffers_kept_iff (hp : Stands pattern 0 p) (hw : whole p = true)
    (hps : pieces p args = some ps) (hf : ∀ a ∈ args, a.Fits) :
    (PrintWithin pattern p.length args ↔ width ps + 1 ≤ 4096) ∧
      (LastWithin DUMA_Abort pattern p.length args ↔
        16 + width ps + (if .char 0 ∈ ps then 1 else 2) ≤ 4096) ∧
      (LastWithin DUMA_Exit pattern p.length args ↔
        15 + width ps + (if .char 0 ∈ ps then 1 else 2) ≤ 4096) := by
  have hA : (chars "\nDUMA Aborting: ").length = 16 ∧ 0 ∉ chars "\nDUMA Aborting: " := by decide +kernel
  have hE : (chars "\nDUMA Exiting: ").length = 15 ∧ 0 ∉ chars "\nDUMA Exiting: " := by decide +kernel
  refine ⟨printWithin_iff hp hw hps hf, ?_, ?_⟩
  · rw [← hA.1]
    exact lastWithin_iff hA.2 hp hw hps hf
  · rw [← hE.1]
    exact lastWithin_iff hE.2 hp hw hps hf

/-- A file name of some hundred characters is reported. -/
theorem buffers_kept_sample : PrintWithin (literal (chars "%s(%i)\n")) 7
      [.string (some (List.replicate 400 (chr 'x'))), .int 17] ∧
    LastWithin DUMA_Abort (literal (chars "%s(%i)\n")) 7
      [.string (some (List.replicate 400 (chr 'x'))), .int 17] ∧
    LastWithin DUMA_Exit (literal (chars "%s(%i)\n")) 7
      [.string (some (List.replicate 400 (chr 'x'))), .int 17] := by
  have hlen : (chars "%s(%i)\n").length = 7 := by decide +kernel
  have hps : pieces (chars "%s(%i)\n") [.string (some (List.replicate 400 (chr 'x'))), .int 17] =
      some [.string (List.replicate 400 (chr 'x')), .char (chr '('), .long 17, .char (chr ')'),
        .char (chr '\n')] := by decide +kernel
  have hf : ∀ a ∈ [Arg.string (some (List.replicate 400 (chr 'x'))), .int 17], a.Fits :=
    List.forall_mem_cons.mpr ⟨fun str hstr => Option.some.inj hstr ▸ fun hm =>
      absurd (List.eq_of_mem_replicate hm) (by decide), by simp [Arg.Fits]⟩
  obtain ⟨hP, hA, hE⟩ := buffers_kept_iff stands_literal (by decide +kernel) hps hf
  rw [hlen] at hP hA hE
  exact ⟨hP.mpr (by decide +kernel), hA.mpr (by decide +kernel), hE.mpr (by decide +kernel)⟩

/-- A file name of 4096 characters overruns the buffer. -/
theorem buffers_kept_fails : ¬ ∀ (p : List UInt8) (pattern : ℕ → UInt8) (args : List Arg)
    (ps : List Piece), Stands pattern 0 p → whole p = true → pieces p args = some ps →
    (∀ a ∈ args, a.Fits) → PrintWithin pattern p.length args ∧
      LastWithin DUMA_Abort pattern p.length args ∧ LastWithin DUMA_Exit pattern p.length args := by
  intro h
  have hf : ∀ a ∈ [Arg.string (some (List.replicate 4096 (chr 'x')))], a.Fits :=
    List.forall_mem_singleton.mpr fun str hstr => Option.some.inj hstr ▸ fun hm =>
      absurd (List.eq_of_mem_replicate hm) (by decide)
  have hw : whole (chars "%s") = true := by decide +kernel
  obtain ⟨hP, -⟩ := h _ _ _ _ stands_literal hw pieces_string hf
  have := (printWithin_iff stands_literal hw pieces_string hf).mp hP
  rw [width, List.map_singleton, List.sum_singleton, Piece.width, List.length_replicate] at this
  omega

end Messages

end Duma.Print

import Duma.Foundation.Scan
import Duma.Model.MapText

/-! # Reading the table of a map file

The loop that reads the table takes an entry from each line, whatever white space stands between
the words. If the file ends with no empty line behind the table, it makes one entry more.
-/

namespace Duma.MapFile

variable {f : TextFile} {m : MapFileImpl} {gap word rest digits : List UInt8} {size : ℕ}
  {p : UInt8 → Bool} {c : UInt8}

def TextFile.At (f : TextFile) (text : List UInt8) : Prop := f.err = .none ∧ f.rest = text

def Blank (text : List UInt8) : Prop := ∀ c ∈ text, isspace c = true

instance {text : List UInt8} : Decidable (Blank text) :=
  decidable_of_iff (text.all isspace = true) List.all_eq_true

def Indent (text : List UInt8) : Prop := Blank text ∧ 10 ∉ text

instance {text : List UInt8} : Decidable (Indent text) :=
  inferInstanceAs (Decidable (Blank text ∧ 10 ∉ text))

structure Unbroken (word : List UInt8) : Prop where
  ne_nil : word ≠ []
  graphic : ∀ c ∈ word, isspace c = false

instance : Decidable (Unbroken word) :=
  decidable_of_iff (word ≠ [] ∧ (word.all fun c => !isspace c) = true)
    ⟨fun h => ⟨h.1, by simpa using h.2⟩, fun h => ⟨h.1, by simpa using h.2⟩⟩

/-- A word as it is read at once. -/
structure IsWord (word : List UInt8) : Prop where
  unbroken : Unbroken word
  nonzero : 0 ∉ word
  length : word.length < 256

instance : Decidable (IsWord word) :=
  decidable_of_iff (Unbroken word ∧ 0 ∉ word ∧ word.length < 256)
    ⟨fun h => ⟨h.1, h.2.1, h.2.2⟩, fun h => ⟨h.1, h.2, h.3⟩⟩

structure Digits (digits : List UInt8) : Prop where
  ne_nil : digits ≠ []
  hex : ∀ c ∈ digits, (hexDigit c).isSome = true

instance : Decidable (Digits digits) :=
  decidable_of_iff (digits ≠ [] ∧ (digits.all fun c => (hexDigit c).isSome) = true)
    ⟨fun h => ⟨h.1, List.all_eq_true.mp h.2⟩, fun h => ⟨h.1, List.all_eq_true.mpr h.2⟩⟩

/-- The text does not go on with the same word. -/
def Ends (p : UInt8 → Bool) (text : List UInt8) : Prop := ∀ c ∈ text.head?, p c = false

theorem hexDigit_graphic (h : (hexDigit c).isSome = true) :
    isalnum c = true ∧ isspace c = false := by
  have hc : 48 ≤ c.toNat ∧ c.toNat ≤ 57 ∨ 97 ≤ c.toNat ∧ c.toNat ≤ 102 ∨
      65 ≤ c.toNat ∧ c.toNat ≤ 70 := by
    unfold hexDigit at h
    simp only [isdigit, UInt8.le_iff_toNat_le, Bool.and_eq_true, decide_eq_true_eq] at h
    split_ifs at h with h1 h2 h3
    · exact Or.inl h1
    · exact Or.inr (Or.inl h2)
    · exact Or.inr (Or.inr h3)
    · cases h
  have h32 : c ≠ 32 := by
    rintro rfl
    revert hc
    decide
  constructor
  · simp [isalnum, isdigit, UInt8.le_iff_toNat_le]
    omega
  · simp [isspace, h32, UInt8.le_iff_toNat_le]
    omega

namespace TextFile

theorem readWhile_at (h : f.At (word ++ rest)) (hw : ∀ c ∈ word, p c = true) (hr : Ends p rest) :
    (f.readWhile p).1 = word ∧ (f.readWhile p).2.At rest := by
  obtain ⟨he, hf⟩ := h
  refine ⟨?_, he, ?_⟩
  · rw [readWhile, hf]
    exact Scan.takeWhile_append hw hr
  · simp only [readWhile, hf]
    exact Scan.dropWhile_append hw hr

theorem peekChar_at (h : f.At rest) : f.peekChar = rest.head? := by
  obtain ⟨he, rfl⟩ := h
  simp [peekChar, he]

theorem readChar_at (h : f.At (c :: rest)) :
    ∃ g : TextFile, f.readChar = (some c, g) ∧ g.At rest := by
  obtain ⟨he, hf⟩ := h
  refine ⟨{ f with rest, line := if c = 10 then f.line + 1 else f.line }, ?_, he, rfl⟩
  simp [readChar, he, hf]

theorem readChar_end (h : f.At []) : f.readChar = (.none, f) := by
  obtain ⟨he, hf⟩ := h
  simp [readChar, he, hf]

theorem skipWhitespace_at (h : f.At (gap ++ rest)) (hg : Blank gap) (hr : Ends isspace rest) :
    f.skipWhitespace.At rest := by
  rw [skipWhitespace, if_neg (not_not.mpr h.1)]
  exact (readWhile_at h hg hr).2

theorem readString_at (h : f.At (gap ++ (word ++ rest))) (hg : Blank gap) (hw : Unbroken word)
    (hr : Ends (fun c => !isspace c) rest) :
    ∃ g : TextFile, f.readString size = (some (word.take (size - 1)), g) ∧ g.At rest := by
  have hskip := skipWhitespace_at h hg (by
    obtain ⟨c, cs, rfl⟩ := List.exists_cons_of_ne_nil hw.ne_nil
    rintro _ ⟨⟩
    exact hw.graphic c List.mem_cons_self)
  have hread := readWhile_at hskip (p := fun c => !isspace c) (by simpa using hw.graphic) hr
  rw [readString, if_neg (not_not.mpr h.1)]
  exact ⟨_, by rw [← hread.1], hread.2⟩

theorem readWhile_end (h : f.At []) : (f.readWhile p).1 = [] ∧ (f.readWhile p).2.At [] :=
  @readWhile_at f [] [] p h (by simp) (by rintro _ ⟨⟩)

theorem skipWhitespace_end (h : f.At gap) (hg : Blank gap) : f.skipWhitespace.At [] :=
  skipWhitespace_at (by rwa [List.append_nil]) hg (by rintro _ ⟨⟩)

theorem readString_end (h : f.At gap) (hg : Blank gap) :
    ∃ g : TextFile, f.readString size = (some [], g) ∧ g.At [] := by
  have hread := readWhile_end (p := fun c => !isspace c) (skipWhitespace_end h hg)
  rw [readString, if_neg (not_not.mpr h.1)]
  exact ⟨_, by simp [hread.1], hread.2⟩

theorem readString_failed (h : f.err ≠ .none) : f.readString size = (.none, f) := if_pos h

theorem readHex_failed (h : f.err ≠ .none) : f.readHex = (0, f) := if_pos h

theorem readHex_at (h : f.At (gap ++ (digits ++ rest))) (hg : Blank gap) (hd : Digits digits)
    (hr : Ends (fun c => (hexDigit c).isSome) rest) :
    ∃ g : TextFile, f.readHex = (hexNumber digits, g) ∧ g.At rest := by
  obtain ⟨c, cs, hc⟩ := List.exists_cons_of_ne_nil hd.ne_nil
  have hgraphic := hexDigit_graphic (hd.hex c (by rw [hc]; exact List.mem_cons_self))
  have hskip : f.skipWhitespace.At (digits ++ rest) := skipWhitespace_at h hg (by
    rw [hc]
    rintro _ ⟨⟩
    exact hgraphic.2)
  have hpeek : f.skipWhitespace.peekChar.any isalnum = true := by
    rw [peekChar_at hskip, hc]
    exact hgraphic.1
  have hread := readWhile_at hskip hd.hex hr
  simp only [readHex, if_neg (not_not.mpr h.1), if_pos hpeek]
  exact ⟨_, by rw [← hread.1], hread.2⟩

theorem readHex_end (h : f.At gap) (hg : Blank gap) :
    ∃ g : TextFile, f.readHex = (0, g) ∧ g.err = .parse := by
  have hskip := skipWhitespace_end h hg
  rw [readHex, if_neg (not_not.mpr h.1)]
  exact ⟨{ f.skipWhitespace with err := .parse }, by simp [peekChar_at hskip], rfl⟩

theorem skipLine_at (h : f.At (word ++ 10 :: rest)) (hw : 10 ∉ word) : f.skipLine.At rest := by
  rw [skipLine, if_neg (not_not.mpr h.1)]
  have hread := readWhile_at h (p := (· != 10)) (fun c hc => by
    simpa using fun h10 : c = 10 => hw (h10 ▸ hc)) (by rintro _ ⟨⟩; rfl)
  obtain ⟨g, hc, hg⟩ := readChar_at hread.2
  rwa [hc]

theorem skipLine_end (h : f.At word) (hw : 10 ∉ word) : f.skipLine.At [] := by
  rw [skipLine, if_neg (not_not.mpr h.1)]
  have hread := @readWhile_at f word [] (· != 10) (by rwa [List.append_nil])
    (fun c hc => by simpa using fun h10 : c = 10 => hw (h10 ▸ hc)) (by rintro _ ⟨⟩)
  rw [readChar_end hread.2]
  exact hread.2

end TextFile

/-- A line of the table: segment and offset, name, base and object file, an `f` in front of this
perhaps. Whatever follows in the line is not read. -/
structure Line where
  seg : List UInt8
  offs : List UInt8
  name : List UInt8
  rva : List UInt8
  lib : List UInt8
  /-- the white space in front of the name, the base, what follows it, and behind the `f` -/
  gapName : List UInt8
  gapRva : List UInt8
  gapLib : List UInt8
  gapMark : Option (List UInt8)
  lead : List UInt8
  tail : List UInt8
  hex : ∀ digits ∈ [seg, offs, rva], Digits digits
  word : IsWord name ∧ IsWord lib
  gap : ∀ gap ∈ gapName :: gapRva :: gapLib :: gapMark.toList, gap ≠ [] ∧ Blank gap
  mark : gapMark = .none → lib ≠ Print.chars "f"
  start : Indent lead
  rest : Ends (fun c => !isspace c) tail ∧ 10 ∉ tail

namespace Line

variable {l : Line} {b : Buffers}

def marked (l : Line) : List UInt8 := (l.gapMark.map (Print.chr 'f' :: ·)).getD []

def core (l : Line) : List UInt8 :=
  l.seg ++ Print.chr ':' :: (l.offs ++ (l.gapName ++ (l.name ++ (l.gapRva ++ (l.rva ++
    (l.gapLib ++ (l.marked ++ l.lib)))))))

def entry (l : Line) : MapFileEntry where
  sec := UInt32.ofNat (hexNumber l.seg)
  addr := UInt32.ofNat (hexNumber l.offs)
  name := (entryName l.name).2
  rvabase := UInt32.ofNat (hexNumber l.rva)
  lib := l.lib

def buffers (l : Line) : Buffers := ⟨(entryName l.name).1 ++ (entryName l.name).2, l.lib⟩

def sample : Line where
  seg := Print.chars "0001"
  offs := Print.chars "000001a0"
  name := Print.chars "?stackTrace@@YAXXZ"
  rva := Print.chars "004011a0"
  lib := Print.chars "main.obj"
  gapName := Print.chars "   "
  gapRva := Print.chars "         "
  gapLib := [32]
  gapMark := some [32]
  lead := [32]
  tail := []
  hex := by decide
  word := by decide
  gap := by decide
  mark := nofun
  start := by decide
  rest := ⟨nofun, by decide⟩

end Line

theorem cstr_eq (h : (0 : UInt8) ∉ word) : cstr word = word :=
  List.takeWhile_eq_self_iff.mpr fun c hc => by simpa using fun h0 : c = 0 => h (h0 ▸ hc)

theorem IsWord.cstr (h : IsWord word) : cstr word = word := cstr_eq h.nonzero

theorem IsWord.take (h : IsWord word) : word.take 255 = word :=
  List.take_of_length_le (Nat.le_of_lt_succ h.length)

theorem Ends.of_blank (hg : Blank gap) (hne : gap ≠ []) :
    Ends (fun c => !isspace c) (gap ++ rest) := by
  obtain ⟨c, cs, rfl⟩ := List.exists_cons_of_ne_nil hne
  rintro _ ⟨⟩
  simp [hg c List.mem_cons_self]

theorem Ends.of_blank_hex (hg : Blank gap) (hne : gap ≠ []) :
    Ends (fun c => (hexDigit c).isSome) (gap ++ rest) := by
  obtain ⟨c, cs, rfl⟩ := List.exists_cons_of_ne_nil hne
  rintro _ ⟨⟩
  cases h : (hexDigit c).isSome with
  | false => exact h
  | true =>
    have hspace := (hexDigit_graphic h).2
    rw [hg c List.mem_cons_self] at hspace
    cases hspace

theorem TextFile.readWord_at (h : f.At (gap ++ (word ++ rest))) (hg : Blank gap) (hw : IsWord word)
    (hr : Ends (fun c => !isspace c) rest) :
    ∃ g : TextFile, f.readString 256 = (some word, g) ∧ g.At rest := by
  obtain ⟨g, hread, hat⟩ := @readString_at f gap word rest 256 h hg hw.unbroken hr
  exact ⟨g, by rw [hread, hw.take], hat⟩

section Entry

variable {b : Buffers} {l : Line}

theorem parseChar_at (h : m.file.At (c :: rest)) :
    ∃ file : TextFile, m.parseChar c = { m with file } ∧ file.At rest := by
  obtain ⟨file, hread, hat⟩ := TextFile.readChar_at h
  refine ⟨file, ?_, hat⟩
  rw [MapFileImpl.parseChar, hread]
  exact if_pos rfl

theorem lib_at (h : f.At (l.gapLib ++ (l.marked ++ (l.lib ++ rest))))
    (hr : Ends (fun c => !isspace c) rest) :
    ∃ (lib : List UInt8) (g g' : TextFile), f.readString 256 = (some lib, g) ∧ g'.At rest ∧
      (if cstr lib = Print.chars "f" then g.readString 256 else (some lib, g)) =
        (some l.lib, g') := by
  have hgap := l.gap l.gapLib (by simp)
  cases hmark : l.gapMark with
  | none =>
    have hnone : l.marked = [] := by rw [Line.marked, hmark]; rfl
    rw [hnone, List.nil_append] at h
    obtain ⟨g, hread, hat⟩ := TextFile.readWord_at h hgap.2 l.word.2 hr
    refine ⟨l.lib, g, g, hread, hat, ?_⟩
    rw [l.word.2.cstr, if_neg (l.mark hmark)]
  | some gap =>
    have hgapMark := l.gap gap (by simp [hmark])
    have hsome : l.marked = Print.chars "f" ++ gap := by rw [Line.marked, hmark]; rfl
    rw [hsome, List.append_assoc] at h
    have hf : IsWord (Print.chars "f") := by decide
    obtain ⟨g, hread, hat⟩ := TextFile.readWord_at h hgap.2 hf
      (Ends.of_blank hgapMark.2 hgapMark.1)
    obtain ⟨g', hread', hat'⟩ := TextFile.readWord_at hat hgapMark.2 l.word.2 hr
    exact ⟨_, g, g', hread, hat', by rw [hf.cstr, if_pos rfl, hread']⟩

theorem parseEntry_at (hm : m.file.At (gap ++ (l.core ++ rest))) (hg : Blank gap)
    (hr : Ends (fun c => !isspace c) rest) : ∃ file : TextFile, file.At rest ∧
      parseEntry b m = (l.buffers, { m with file, entries := m.entries ++ [l.entry] }) := by
  have hcolon : ∀ text : List UInt8, Ends (fun c => (hexDigit c).isSome) (Print.chr ':' :: text) := by
    rintro text _ ⟨⟩
    decide
  have hseg := l.hex l.seg (by simp)
  have hoffs := l.hex l.offs (by simp)
  have hrva := l.hex l.rva (by simp)
  have hname := l.gap l.gapName (by simp)
  have hgrva := l.gap l.gapRva (by simp)
  have hlib := l.gap l.gapLib (by simp)
  simp only [Line.core, List.append_assoc, List.cons_append] at hm
  obtain ⟨f₁, h₁, a₁⟩ := TextFile.readHex_at hm hg hseg (hcolon _)
  obtain ⟨f₂, h₂, a₂⟩ := @parseChar_at { m with file := f₁ } _ _ a₁
  obtain ⟨f₃, h₃, a₃⟩ := @TextFile.readHex_at f₂ [] _ _ a₂ (by rintro _ ⟨⟩) hoffs
    (Ends.of_blank_hex hname.2 hname.1)
  obtain ⟨f₄, h₄, a₄⟩ := TextFile.readWord_at a₃ hname.2 l.word.1
    (Ends.of_blank hgrva.2 hgrva.1)
  obtain ⟨f₅, h₅, a₅⟩ := TextFile.readHex_at a₄ hgrva.2 hrva
    (Ends.of_blank_hex hlib.2 hlib.1)
  obtain ⟨lib, f₆, f₇, h₆, a₇, h₇⟩ := lib_at a₅ hr
  refine ⟨f₇, a₇, ?_⟩
  simp only [parseEntry, h₁, h₂, h₃, h₄, h₅, h₆, Option.getD_some, h₇]
  simp [Line.buffers, Line.entry, l.word.2.cstr]

end Entry

section Table

variable {b : Buffers} {l : Line} {lines : List Line} {tail back blanks : List UInt8} {fuel : ℕ}

def AtNewline (text : List UInt8) : Prop := text = [] ∨ ∃ rest, text = 10 :: rest

def linesText (lines : List Line) : List UInt8 :=
  lines.flatMap fun l => 10 :: (l.lead ++ (l.core ++ l.tail))

theorem linesText_cons :
    linesText (l :: lines) = 10 :: (l.lead ++ (l.core ++ (l.tail ++ linesText lines))) := by
  simp [linesText]

theorem linesText_newline (h : AtNewline rest) : AtNewline (linesText lines ++ rest) := by
  cases lines with
  | nil => exact h
  | cons l lines =>
    rw [linesText_cons]
    exact Or.inr ⟨_, rfl⟩

theorem nextLineEmpty_at (h : f.At (tail ++ 10 :: (blanks ++ rest))) (ht : 10 ∉ tail)
    (hb : Indent blanks) (hr : ∀ c ∈ rest.head?, isspace c = false ∨ c = 10) :
    ∃ g : TextFile, nextLineEmpty f = (rest.head? == some 10, g) ∧ g.At rest := by
  have hskip := TextFile.skipLine_at h ht
  have hread := TextFile.readWhile_at hskip (p := fun c => isspace c && c != 10)
    (fun c hc => by simpa [hb.1 c hc] using fun h10 : c = 10 => hb.2 (h10 ▸ hc)) fun c hc => by
      rcases hr c hc with h | rfl
      · simp [h]
      · simp
  refine ⟨_, ?_, hread.2⟩
  simp only [nextLineEmpty, if_neg (not_not.mpr hskip.1)]
  rw [TextFile.peekChar_at hread.2]

/-- What ends a file whose table no empty line ends. -/
def Cut (text : List UInt8) : Prop := text = [] ∨ ∃ blanks, text = 10 :: blanks ∧ Indent blanks

theorem nextLineEmpty_cut (h : f.At (tail ++ rest)) (ht : 10 ∉ tail) (hr : Cut rest) :
    ∃ g : TextFile, nextLineEmpty f = (false, g) ∧ g.At [] := by
  rcases hr with rfl | ⟨blanks, rfl, hb⟩
  · rw [List.append_nil] at h
    have hskip := TextFile.skipLine_end h ht
    have hread := TextFile.readWhile_end (p := fun c => isspace c && c != 10) hskip
    refine ⟨_, ?_, hread.2⟩
    simp only [nextLineEmpty, if_neg (not_not.mpr hskip.1)]
    rw [TextFile.peekChar_at hread.2]
    rfl
  · rw [← List.append_nil blanks] at h
    exact nextLineEmpty_at h ht hb (by rintro _ ⟨⟩)

theorem nextLineEmpty_failed (h : f.err ≠ .none) : nextLineEmpty f = (false, f) := by
  have hskip : f.skipLine = f := if_pos h
  have hpeek : f.peekChar = .none := if_pos h
  simp only [nextLineEmpty, hskip, if_pos h, hpeek]
  rfl

theorem Line.core_head (l : Line) : ∃ c rest, l.core = c :: rest ∧ isspace c = false := by
  have hseg := l.hex l.seg (by simp)
  obtain ⟨c, cs, hc⟩ := List.exists_cons_of_ne_nil hseg.ne_nil
  refine ⟨c, _, by rw [Line.core, hc]; rfl, (hexDigit_graphic (hseg.hex c ?_)).2⟩
  rw [hc]
  exact List.mem_cons_self

theorem Line.tail_ends (l : Line) (h : AtNewline rest) :
    Ends (fun c => !isspace c) (l.tail ++ rest) := by
  cases ht : l.tail with
  | nil =>
    rcases h with rfl | ⟨rest, rfl⟩
    · rintro _ ⟨⟩
    · rintro _ ⟨⟩
      decide
  | cons c cs =>
    rintro _ ⟨⟩
    exact l.rest.1 c (by rw [ht]; rfl)

/-- The loop reads the lines one after another, up to the end of the last one. -/
theorem parseLoop_lines
    (hm : m.file.At (gap ++ (l.core ++ (l.tail ++ (linesText lines ++ rest)))))
    (he : m.errLine = .none) (hg : Blank gap) (hr : AtNewline rest) :
    ∃ (last : Line) (file : TextFile), (l :: lines).getLast? = some last ∧
      file.At (last.tail ++ rest) ∧
      parseLoop (fuel + lines.length + 1) b m =
        let m' : MapFileImpl := { m with file, entries := m.entries ++ (l :: lines).map Line.entry }
        let (empty, file) := nextLineEmpty file
        if empty then { m' with file } else parseLoop fuel last.buffers { m' with file } := by
  induction lines generalizing l m gap b with
  | nil =>
    obtain ⟨file, hat, hentry⟩ :=
      @parseEntry_at _ _ _ b _ hm hg (l.tail_ends (linesText_newline hr))
    refine ⟨l, file, rfl, hat, ?_⟩
    have herr : m.error = .none := by simp [MapFileImpl.error, he, hm.1]
    simp only [List.length_nil, Nat.add_zero, parseLoop, herr, hentry, ne_eq, not_true_eq_false,
      if_false, List.map_cons, List.map_nil]
  | cons l' lines ih =>
    obtain ⟨file, hat, hentry⟩ :=
      @parseEntry_at _ _ _ b _ hm hg (l.tail_ends (linesText_newline hr))
    obtain ⟨c, cs, hc, hspace⟩ := l'.core_head
    rw [linesText_cons] at hat
    simp only [List.cons_append, List.append_assoc] at hat
    obtain ⟨g, hnext, hg'⟩ := nextLineEmpty_at hat l.rest.2 l'.start (by
      rw [hc]
      rintro _ ⟨⟩
      exact Or.inl hspace)
    have hfull : ((l'.core ++ (l'.tail ++ (linesText lines ++ rest))).head? == some 10) = false := by
      rw [hc]
      have hne : c ≠ 10 := by
        rintro rfl
        cases hspace
      simpa using hne
    rw [hfull] at hnext
    obtain ⟨last, file', hlast, hat', hloop⟩ := ih (l := l') (b := l.buffers)
      (m := { m with file := g, entries := m.entries ++ [l.entry] })
      (show g.At ([] ++ _) from hg') he (by rintro _ ⟨⟩)
    have herr : m.error = .none := by simp [MapFileImpl.error, he, hm.1]
    refine ⟨last, file', by rw [List.getLast?_cons_cons]; exact hlast, hat', ?_⟩
    rw [List.length_cons, ← Nat.add_assoc, parseLoop, if_neg (not_not.mpr herr)]
    simp only [hentry, hnext, Bool.false_eq_true, if_false]
    rw [hloop]
    simp

theorem parseLoop_closed
    (hm : m.file.At (gap ++ (l.core ++ (l.tail ++ (linesText lines ++
      (10 :: (blanks ++ 10 :: back)))))))
    (he : m.errLine = .none) (hg : Blank gap) (hb : Indent blanks) :
    ∃ file : TextFile, file.At (10 :: back) ∧ parseLoop (fuel + lines.length + 1) b m =
      { m with file, entries := m.entries ++ (l :: lines).map Line.entry } := by
  obtain ⟨last, file, -, hat, hloop⟩ :=
    @parseLoop_lines _ _ _ b _ _ fuel hm he hg (Or.inr ⟨_, rfl⟩)
  obtain ⟨g, hnext, hg'⟩ := nextLineEmpty_at hat last.rest.2 hb (by
    rintro _ ⟨⟩
    exact Or.inr rfl)
  refine ⟨g, hg', ?_⟩
  rw [hloop]
  simp [hnext]

end Table

section Cut

variable {b : Buffers} {l : Line} {lines : List Line} {fuel : ℕ}

theorem isMangling_dot (c : UInt8) : isMangling (dot c) = isMangling c := by
  rw [dot]
  split_ifs with h
  · subst h
    decide
  · rfl

theorem dot_eq (h : c ≠ 64) : dot c = c := if_neg h

theorem dot_ne (c : UInt8) : dot c ≠ 64 := by
  rw [dot]
  split_ifs with h
  · decide
  · exact h

theorem chop_eq (h : 64 ∉ word) : chop word = word := by
  fun_induction chop word with
  | case1 => simp at h
  | case2 c rest _ ih => rw [ih fun h' => h (List.mem_cons_of_mem c h')]
  | case3 => rfl

theorem mem_chop (h : c ∈ chop word) : c ∈ word := by
  fun_induction chop word with
  | case1 => cases h
  | case2 d rest _ ih =>
    rcases List.mem_cons.mp h with rfl | h'
    · exact List.mem_cons_self
    · exact List.mem_cons_of_mem d (ih h')
  | case3 => cases h

theorem entryName_again (word : List UInt8) :
    entryName ((entryName word).1 ++ (entryName word).2) = entryName word := by
  have h0 : ∀ c ∈ chop (cstr word), c ≠ 0 := fun c hc => by
    simpa using List.mem_takeWhile_imp (mem_chop hc)
  generalize hchop : chop (cstr word) = name at h0
  have hentry : entryName word =
      (name.takeWhile isMangling, (name.dropWhile isMangling).map dot) := by
    rw [entryName, hchop]
  have hfront : ∀ c ∈ name.takeWhile isMangling, isMangling c = true ∧ c ≠ 0 := fun c hc =>
    ⟨List.mem_takeWhile_imp hc, h0 c (List.takeWhile_subset isMangling hc)⟩
  have hback : ∀ c ∈ (name.dropWhile isMangling).map dot, c ≠ 64 ∧ c ≠ 0 := fun c hc => by
    obtain ⟨d, hd, rfl⟩ := List.mem_map.mp hc
    refine ⟨dot_ne d, ?_⟩
    rw [dot]
    split_ifs
    · decide
    · exact h0 d (List.dropWhile_subset isMangling hd)
  rw [hentry, entryName, cstr_eq, chop_eq]
  · have hhead : ∀ c ∈ ((name.dropWhile isMangling).map dot).head?, isMangling c = false := by
      intro c hc
      rw [List.head?_map] at hc
      obtain ⟨d, hd, rfl⟩ := Option.mem_map.mp hc
      rw [isMangling_dot]
      exact Scan.head?_dropWhile d hd
    rw [Scan.takeWhile_append (fun c hc => (hfront c hc).1) hhead,
      Scan.dropWhile_append (fun c hc => (hfront c hc).1) hhead]
    refine Prod.ext rfl ?_
    exact (List.map_congr_left fun c hc => dot_eq (hback c hc).1).trans (List.map_id _)
  · intro h
    rcases List.mem_append.mp h with h | h
    · exact absurd (hfront 64 h).1 (by decide)
    · exact (hback 64 h).1 rfl
  · intro h
    rcases List.mem_append.mp h with h | h
    · exact (hfront 0 h).2 rfl
    · exact (hback 0 h).2 rfl

/-- What is read where there is nothing left to read. -/
def phantom (l : Line) : MapFileEntry := ⟨0, 0, (entryName l.name).2, 0, l.lib⟩

theorem parseEntry_end (hm : m.file.At []) : ∃ (b : Buffers) (file : TextFile),
    file.err = .parse ∧ parseEntry l.buffers m =
      (b, { m with file, errLine := some file.line, entries := m.entries ++ [phantom l] }) := by
  obtain ⟨file, hread, herr⟩ := TextFile.readHex_end hm (by rintro _ ⟨⟩)
  have hfailed : file.err ≠ .none := by rw [herr]; decide
  have hchar : MapFileImpl.parseChar { m with file } (Print.chr ':') =
      { m with file, errLine := some file.line } := by
    rw [MapFileImpl.parseChar, TextFile.readChar, if_pos hfailed]
    rfl
  refine ⟨⟨l.buffers.buf, l.lib⟩, file, herr, ?_⟩
  simp only [parseEntry, hread, hchar, TextFile.readHex_failed hfailed,
    TextFile.readString_failed hfailed, Option.getD_none]
  have hname : entryName l.buffers.buf = entryName l.name := entryName_again l.name
  rw [hname]
  simp only [Line.buffers, phantom, l.word.2.cstr]
  split_ifs <;> simp [l.word.2.cstr]

theorem parseLoop_error (h : m.error ≠ .none) : parseLoop fuel b m = m := by
  cases fuel with
  | zero => rfl
  | succ fuel => exact if_pos h

/-- A table that the end of the file cuts off gives one entry more than it has lines, with the name
of the last one and at base 0. -/
theorem parseLoop_cut (hm : m.file.At (gap ++ (l.core ++ (l.tail ++ (linesText lines ++ rest)))))
    (he : m.errLine = .none) (hg : Blank gap) (hr : Cut rest) :
    ∃ (last : Line) (file : TextFile), (l :: lines).getLast? = some last ∧ file.err = .parse ∧
      parseLoop (fuel + 1 + lines.length + 1) b m =
        { m with
          file
          errLine := some file.line
          entries := m.entries ++ (l :: lines).map Line.entry ++ [phantom last] } := by
  have hnewline : AtNewline rest := hr.imp id fun ⟨blanks, h, _⟩ => ⟨blanks, h⟩
  obtain ⟨last, file, hlast, hat, hloop⟩ :=
    @parseLoop_lines _ _ _ b _ _ (fuel + 1) hm he hg hnewline
  obtain ⟨g, hnext, hg'⟩ := nextLineEmpty_cut hat last.rest.2 hr
  obtain ⟨b', file', herr, hentry⟩ := @parseEntry_end
    { m with file := g, entries := m.entries ++ (l :: lines).map Line.entry } last hg'
  refine ⟨last, file', hlast, herr, ?_⟩
  rw [hloop]
  simp only [hnext, Bool.false_eq_true, if_false, parseLoop, hentry]
  have hfile : file'.err ≠ .none := by rw [herr]; decide
  have hgood : ∀ entries, MapFileImpl.error { m with file := g, entries } = .none := by
    intro entries
    simp [MapFileImpl.error, he, hg'.1]
  rw [if_neg (not_not.mpr (hgood _)), nextLineEmpty_failed hfile]
  exact parseLoop_error (show ErrorType.parse ≠ .none by decide)

end Cut

end Duma.MapFile

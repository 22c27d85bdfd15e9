import Duma.StackTrace.Table

/-! # Reading a map file back

The entries that are read from a map file are those of the lines of its tables, in their order. If
the end of the file cuts off a table, this is an error, and one more entry is there.
-/

namespace Duma.MapFile

variable {f : TextFile} {m : MapFileImpl} {gap word rest left : List UInt8} {fuel bound : ℕ}
  {stack : Buffers}

theorem Blank.append (hg : Blank gap) (hl : Blank left) : Blank (gap ++ left) := fun c hc =>
  (List.mem_append.mp hc).elim (hg c) (hl c)

section Heading

variable {str : String} {heading : List (List UInt8 × String)}

theorem parse_at (hm : m.file.At (gap ++ (Print.chars str ++ rest))) (hg : Blank gap)
    (hw : IsWord (Print.chars str)) (hr : Ends (fun c => !isspace c) rest) :
    ∃ file : TextFile, m.parse str = { m with file } ∧ file.At rest := by
  obtain ⟨file, hread, hat⟩ := TextFile.readWord_at hm hg hw hr
  refine ⟨file, ?_, hat⟩
  simp only [MapFileImpl.parse, hread, Option.map_some, hw.cstr]
  exact if_pos trivial

def headingText (heading : List (List UInt8 × String)) : List UInt8 :=
  heading.flatMap fun w => w.1 ++ Print.chars w.2

theorem headingText_ends (hh : ∀ w ∈ heading, w.1 ≠ [] ∧ Blank w.1)
    (hr : Ends (fun c => !isspace c) rest) :
    Ends (fun c => !isspace c) (headingText heading ++ rest) := by
  cases heading with
  | nil => exact hr
  | cons w heading =>
    have hw := hh w List.mem_cons_self
    simp only [headingText, List.flatMap_cons, List.append_assoc]
    exact Ends.of_blank hw.2 hw.1

theorem parse_heading (hm : m.file.At (headingText heading ++ rest))
    (hh : ∀ w ∈ heading, w.1 ≠ [] ∧ Blank w.1) (hw : ∀ w ∈ heading, IsWord (Print.chars w.2))
    (hr : Ends (fun c => !isspace c) rest) :
    ∃ file : TextFile, (heading.map Prod.snd).foldl MapFileImpl.parse m = { m with file } ∧
      file.At rest := by
  induction heading generalizing m with
  | nil => exact ⟨m.file, rfl, hm⟩
  | cons w heading ih =>
    simp only [headingText, List.flatMap_cons, List.append_assoc] at hm
    have htail := fun w' hw' => hh w' (List.mem_cons_of_mem w hw')
    obtain ⟨file, hparse, hat⟩ := parse_at hm (hh w List.mem_cons_self).2
      (hw w List.mem_cons_self) (headingText_ends htail hr)
    obtain ⟨file', hparse', hat'⟩ := @ih { m with file } hat htail
      fun w' hw' => hw w' (List.mem_cons_of_mem w hw')
    refine ⟨file', ?_, hat'⟩
    rw [List.map_cons, List.foldl_cons, hparse, hparse']

end Heading

/-- A table of functions: the heading and the lines. -/
structure Table where
  gap : List UInt8
  heading : List (List UInt8 × String)
  under : List UInt8
  first : Line
  lines : List Line
  blank : Blank gap
  words : heading.map Prod.snd = ["Publics", "by", "Value", "Rva+Base", "Lib:Object"]
  spaced : ∀ w ∈ heading, w.1 ≠ [] ∧ Blank w.1
  below : under ≠ [] ∧ Blank under

namespace Table

def text (t : Table) : List UInt8 :=
  t.gap ++ (Print.chars "Address" ++ (headingText t.heading ++ (t.under ++ (t.first.lead ++
    (t.first.core ++ (t.first.tail ++ linesText t.lines))))))

def entries (t : Table) : List MapFileEntry := (t.first :: t.lines).map Line.entry

def sample : Table where
  gap := [32]
  heading := [([32], "Publics"), ([32], "by"), ([32], "Value"), ([9], "Rva+Base"),
    ([9], "Lib:Object")]
  under := [10, 10]
  first := Line.sample
  lines := []
  blank := by decide
  words := rfl
  spaced := by decide
  below := by decide

end Table

section Tables

variable {t : Table}

theorem isWord_words : ∀ str ∈ ["Publics", "by", "Value", "Rva+Base", "Lib:Object"],
    IsWord (Print.chars str) := by
  intro str hstr
  simp only [List.mem_cons, List.not_mem_nil, or_false] at hstr
  rcases hstr with rfl | rfl | rfl | rfl | rfl <;> decide

theorem parseEntries_at
    (hm : m.file.At
      (headingText t.heading ++ (t.under ++ (t.first.lead ++ (t.first.core ++ rest))))) :
    ∃ file : TextFile, file.At (t.first.core ++ rest) ∧
      parseEntries stack fuel m = parseLoop fuel stack { m with file } := by
  obtain ⟨file, hparse, hat⟩ := parse_heading hm t.spaced
    (fun w hw => isWord_words w.2 (t.words ▸ List.mem_map_of_mem hw))
    (Ends.of_blank t.below.2 t.below.1)
  rw [t.words] at hparse
  rw [← List.append_assoc] at hat
  obtain ⟨c, cs, hc, hspace⟩ := t.first.core_head
  refine ⟨file.skipWhitespace, TextFile.skipWhitespace_at hat
    (t.below.2.append t.first.start.1) ?_, ?_⟩
  · rw [hc]
    rintro _ ⟨⟩
    exact hspace
  · simp only [List.foldl_cons, List.foldl_nil] at hparse
    rw [parseEntries, hparse]

theorem readLoop_table (hm : m.file.At (left ++ (t.text ++ rest))) (hl : Blank left) :
    ∃ file : TextFile, file.At (t.first.core ++ (t.first.tail ++ (linesText t.lines ++ rest))) ∧
      readLoop stack bound (fuel + 1) m =
        readLoop stack bound fuel (parseLoop bound stack { m with file }) := by
  simp only [Table.text, List.append_assoc] at hm
  rw [← List.append_assoc] at hm
  have hends : Ends (fun c => !isspace c) (headingText t.heading ++ (t.under ++ (t.first.lead ++
      (t.first.core ++ (t.first.tail ++ (linesText t.lines ++ rest)))))) :=
    headingText_ends t.spaced (Ends.of_blank t.below.2 t.below.1)
  obtain ⟨file, hread, hat⟩ := @TextFile.readString_at _ _ _ _ 1024 hm (hl.append t.blank)
    (by decide) hends
  obtain ⟨file', hat', hparse⟩ := @parseEntries_at { m with file } _ bound stack t hat
  refine ⟨file', hat', ?_⟩
  rw [readLoop, hread]
  simp only [← hparse]
  exact if_pos (by decide)

theorem readLoop_closed {blanks : List UInt8}
    (hm : m.file.At (left ++ (t.text ++ (10 :: (blanks ++ 10 :: rest))))) (hl : Blank left)
    (he : m.errLine = .none) (hb : Indent blanks) (hbound : t.lines.length < bound) :
    ∃ file : TextFile, file.At (10 :: rest) ∧ readLoop stack bound (fuel + 1) m =
      readLoop stack bound fuel { m with file, entries := m.entries ++ t.entries } := by
  obtain ⟨file, hat, hloop⟩ := @readLoop_table _ _ _ fuel bound stack _ hm hl
  obtain ⟨more, rfl⟩ := Nat.exists_eq_add_of_lt hbound
  obtain ⟨file', hat', hparse⟩ := @parseLoop_closed { m with file } [] stack _ _ rest blanks more
    hat he (by rintro _ ⟨⟩) hb
  refine ⟨file', hat', ?_⟩
  rw [hloop, Nat.add_comm t.lines.length more, hparse]
  rfl

theorem readLoop_cut (hm : m.file.At (left ++ (t.text ++ rest))) (hl : Blank left)
    (he : m.errLine = .none) (hr : Cut rest) (hbound : t.lines.length + 1 < bound) :
    ∃ (last : Line) (m' : MapFileImpl), (t.first :: t.lines).getLast? = some last ∧
      readLoop stack bound (fuel + 1) m = m' ∧ m'.error = .parse ∧
      m'.entries = m.entries ++ t.entries ++ [phantom last] := by
  obtain ⟨file, hat, hloop⟩ := @readLoop_table _ _ _ fuel bound stack _ hm hl
  obtain ⟨more, rfl⟩ := Nat.exists_eq_add_of_lt hbound
  obtain ⟨last, file', hlast, herr, hparse⟩ := @parseLoop_cut { m with file } [] _ stack _ _ more
    hat he (by rintro _ ⟨⟩) hr
  have hfuel : t.lines.length + 1 + more + 1 = more + 1 + t.lines.length + 1 := by omega
  rw [hloop, hfuel, hparse]
  refine ⟨last, _, hlast, rfl, ?_⟩
  cases fuel with
  | zero => exact ⟨rfl, rfl⟩
  | succ fuel =>
    have hread := @TextFile.readString_failed file' 1024 (by rw [herr]; decide)
    simp only [readLoop, hread]
    exact ⟨rfl, rfl⟩

end Tables

/-- A line outside of the tables; its first word is not that of a heading. -/
structure Skipped where
  gap : List UInt8
  word : List UInt8
  tail : List UInt8
  blank : Blank gap
  first : Unbroken word
  other : cstr (word.take 1023) ≠ Print.chars "Address"
  rest : Ends (fun c => !isspace c) tail ∧ 10 ∉ tail

/-- A skipped line, or a table with the blanks of the empty line behind it. -/
inductive Piece
  | line (s : Skipped)
  | table (t : Table) (blanks : List UInt8) (indent : Indent blanks)

namespace Piece

def text : Piece → List UInt8
  | line s => s.gap ++ (s.word ++ (s.tail ++ [10]))
  | table t blanks _ => t.text ++ (10 :: (blanks ++ [10]))

def entries : Piece → List MapFileEntry
  | line _ => []
  | table t _ _ => t.entries

end Piece

section Pieces

variable {s : Skipped} {pieces : List Piece}

theorem readLoop_line (hm : m.file.At (left ++ ((Piece.line s).text ++ rest))) (hl : Blank left) :
    ∃ file : TextFile, file.At rest ∧
      readLoop stack bound (fuel + 1) m = readLoop stack bound fuel { m with file } := by
  simp only [Piece.text, List.append_assoc, List.singleton_append] at hm
  rw [← List.append_assoc] at hm
  have hends : Ends (fun c => !isspace c) (s.tail ++ 10 :: rest) := by
    cases ht : s.tail with
    | nil =>
      rintro _ ⟨⟩
      decide
    | cons c cs =>
      rintro _ ⟨⟩
      exact s.rest.1 c (by rw [ht]; rfl)
  obtain ⟨file, hread, hat⟩ := @TextFile.readString_at _ _ _ _ 1024 hm (hl.append s.blank)
    s.first hends
  refine ⟨file.skipLine, TextFile.skipLine_at hat s.rest.2, ?_⟩
  obtain ⟨c, cs, hc⟩ := List.exists_cons_of_ne_nil s.first.ne_nil
  have hother := s.other
  rw [hc] at hread hother
  rw [readLoop, hread]
  exact if_neg hother

/-- The pieces of a file are read one after another. -/
theorem readLoop_pieces (hm : m.file.At (left ++ (pieces.flatMap Piece.text ++ rest)))
    (hl : Blank left) (he : m.errLine = .none)
    (hbound : (pieces.flatMap Piece.entries).length ≤ bound) :
    ∃ (left' : List UInt8) (file : TextFile), Blank left' ∧ file.At (left' ++ rest) ∧
      readLoop stack bound (fuel + pieces.length) m = readLoop stack bound fuel
        { m with file, entries := m.entries ++ pieces.flatMap Piece.entries } := by
  induction pieces generalizing m left with
  | nil => exact ⟨left, m.file, hl, hm, by simp⟩
  | cons piece pieces ih =>
    simp only [List.flatMap_cons, List.append_assoc] at hm
    simp only [List.flatMap_cons, List.length_append] at hbound
    rw [List.length_cons, ← Nat.add_assoc]
    cases piece with
    | line s =>
      obtain ⟨file, hat, hloop⟩ :=
        @readLoop_line _ _ _ (fuel + pieces.length) bound stack _ hm hl
      obtain ⟨left', file', hl', hat', hloop'⟩ := @ih { m with file } [] hat
        (by rintro _ ⟨⟩) he (by omega)
      refine ⟨left', file', hl', hat', ?_⟩
      rw [hloop, hloop', List.flatMap_cons]
      rfl
    | table t blanks hb =>
      simp only [Piece.text, List.append_assoc, List.cons_append, List.nil_append] at hm
      have hlines : t.lines.length < bound := by
        simp only [Piece.entries, Table.entries, List.length_map, List.length_cons] at hbound
        omega
      obtain ⟨file, hat, hloop⟩ :=
        @readLoop_closed _ _ _ (fuel + pieces.length) bound stack _ _ hm hl he hb hlines
      obtain ⟨left', file', hl', hat', hloop'⟩ :=
        @ih { m with file, entries := m.entries ++ t.entries } [10] hat (by decide) he (by omega)
      refine ⟨left', file', hl', hat', ?_⟩
      rw [hloop, hloop', List.flatMap_cons]
      simp only [Piece.entries, List.append_assoc]

end Pieces

/-- The text of a map file: the name of the module, lines and tables. -/
structure MapText where
  gap : List UInt8
  title : List UInt8
  behind : List UInt8
  pieces : List Piece
  blank : Blank gap
  word : Unbroken title
  spaced : behind ≠ [] ∧ Blank behind

namespace MapText

def text (t : MapText) : List UInt8 :=
  t.gap ++ (t.title ++ (t.behind ++ t.pieces.flatMap Piece.text))

def entries (t : MapText) : List MapFileEntry := t.pieces.flatMap Piece.entries

def sample (pieces : List Piece) : MapText where
  gap := [32]
  title := Print.chars "demo"
  behind := [10]
  pieces := pieces
  blank := by decide
  word := by decide
  spaced := by decide

end MapText

section Whole

variable {t : MapText} {table : Table} {pieces : List Piece}

theorem length_linesText {lines : List Line} : lines.length ≤ (linesText lines).length := by
  induction lines with
  | nil => exact Nat.le_refl 0
  | cons l lines ih =>
    rw [linesText_cons]
    simp only [List.length_cons, List.length_append]
    omega

theorem Table.length_text (t : Table) : t.entries.length < t.text.length := by
  have hlines := @length_linesText t.lines
  have haddress : (Print.chars "Address").length = 7 := by decide
  simp only [Table.text, Table.entries, List.length_map, List.length_cons, List.length_append]
  omega

theorem length_pieces :
    pieces.length + (pieces.flatMap Piece.entries).length ≤ (pieces.flatMap Piece.text).length := by
  induction pieces with
  | nil => exact Nat.le_refl 0
  | cons piece pieces ih =>
    have hpiece : piece.entries.length < piece.text.length := by
      cases piece with
      | line s =>
        simp only [Piece.entries, Piece.text, List.length_append, List.length_nil,
          List.length_singleton]
        omega
      | table t blanks hb =>
        have htext := t.length_text
        simp only [Piece.entries, Piece.text, List.length_append, List.length_cons] at htext ⊢
        omega
    simp only [List.flatMap_cons, List.length_append, List.length_cons]
    omega

theorem readMap_pieces (t : MapText) (rest : List UInt8) :
    ∃ (left : List UInt8) (file : TextFile) (fuel : ℕ), Blank left ∧ file.At (left ++ rest) ∧
      rest.length + 1 < fuel ∧ readMap stack (some (t.text ++ rest)) =
        (cstr (t.title.take 255),
          readLoop stack ((t.text ++ rest).length + 2) fuel ⟨file, .none, t.entries⟩) := by
  have hopen : (TextFile.open (some (t.text ++ rest))).At
      (t.gap ++ (t.title ++ (t.behind ++ (t.pieces.flatMap Piece.text ++ rest)))) :=
    ⟨rfl, by simp [TextFile.open, MapText.text]⟩
  obtain ⟨file, hread, hat⟩ := @TextFile.readString_at _ _ _ _ 256 hopen t.blank t.word
    (Ends.of_blank t.spaced.2 t.spaced.1)
  have hlength := @length_pieces t.pieces
  have htext : (t.text ++ rest).length =
      t.gap.length + (t.title.length + (t.behind.length +
        (t.pieces.flatMap Piece.text).length)) + rest.length := by
    simp only [MapText.text, List.length_append]
  have hmore := Nat.sub_add_cancel
    (show t.pieces.length ≤ (t.text ++ rest).length + 2 by omega)
  obtain ⟨left, file', hl, hat', hloop⟩ := @readLoop_pieces ⟨file, .none, []⟩ rest t.behind
    ((t.text ++ rest).length + 2 - t.pieces.length) ((t.text ++ rest).length + 2) stack t.pieces
    hat t.spaced.2 rfl (by omega)
  have htitle := List.length_pos_iff.mpr t.word.ne_nil
  refine ⟨left, file', (t.text ++ rest).length + 2 - t.pieces.length, hl, hat', by omega, ?_⟩
  rw [hmore] at hloop
  simp only [readMap, hread, Option.map_some, Option.getD_some, hloop]
  rfl

/-- A file of closed tables is read as their lines say: the entries are those of the lines, in the
order of the file, and there is no error. -/
theorem read_closed (stack : Buffers) (t : MapText) {blanks : List UInt8} (hb : Blank blanks) :
    (readMap stack (some (t.text ++ blanks))).1 = cstr (t.title.take 255) ∧
      (readMap stack (some (t.text ++ blanks))).2.entries = t.entries ∧
      (readMap stack (some (t.text ++ blanks))).2.error = .none := by
  obtain ⟨left, file, fuel, hl, hat, hfuel, hread⟩ := @readMap_pieces stack t blanks
  obtain ⟨file', hend, hat'⟩ := @TextFile.readString_end _ _ 1024 hat (hl.append hb)
  obtain ⟨more, rfl⟩ := Nat.exists_eq_add_of_lt hfuel
  rw [hread, readLoop, hend]
  exact ⟨rfl, rfl, hat'.1⟩

theorem read_closed_sample :
    (readMap ⟨[], []⟩ (some ((MapText.sample [.table Table.sample [] (by decide)]).text ++
      [10]))).2.entries =
      [⟨1, 0x1a0, Print.chars "stackTrace", 0x4011a0, Print.chars "main.obj"⟩] := by
  have hread := @read_closed ⟨[], []⟩
    (MapText.sample [.table Table.sample [] (by decide)]) [10] (by decide)
  rw [hread.2.1]
  decide

/-- A file that ends behind the last line of a table is read with an error, and its last entry
repeats the name and the object file of that line at base 0. -/
theorem read_cut (stack : Buffers) (t : MapText) (table : Table) {rest : List UInt8}
    (hr : Cut rest) : ∃ last : Line, (table.first :: table.lines).getLast? = some last ∧
      (readMap stack (some (t.text ++ (table.text ++ rest)))).2.entries =
        t.entries ++ table.entries ++ [phantom last] ∧
      (readMap stack (some (t.text ++ (table.text ++ rest)))).2.error = .parse := by
  obtain ⟨left, file, fuel, hl, hat, hfuel, hread⟩ := @readMap_pieces stack t (table.text ++ rest)
  have hlength := table.length_text
  have hbound : table.lines.length + 1 < (t.text ++ (table.text ++ rest)).length + 2 := by
    simp only [Table.entries, List.length_map, List.length_cons] at hlength
    simp only [List.length_append]
    omega
  obtain ⟨more, rfl⟩ := Nat.exists_eq_add_of_lt hfuel
  obtain ⟨last, m', hlast, hloop, herr, hentries⟩ :=
    @readLoop_cut ⟨file, .none, t.entries⟩ rest left _ _ stack table hat hl rfl hr hbound
  rw [hread, hloop]
  exact ⟨last, hlast, hentries, herr⟩

theorem read_cut_sample :
    (readMap ⟨[], []⟩ (some ((MapText.sample []).text ++ (Table.sample.text ++ [])))).2.entries =
      [⟨1, 0x1a0, Print.chars "stackTrace", 0x4011a0, Print.chars "main.obj"⟩,
        ⟨0, 0, Print.chars "stackTrace", 0, Print.chars "main.obj"⟩] := by
  obtain ⟨last, hlast, hread, -⟩ :=
    @read_cut ⟨[], []⟩ (MapText.sample []) Table.sample [] (Or.inl rfl)
  obtain rfl : Line.sample = last := Option.some.inj hlast
  rw [hread]
  decide

end Whole

end Duma.MapFile

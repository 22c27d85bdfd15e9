import Duma.Foundation.Numeral
import Duma.Model.Environ
import Duma.Model.MapFile

/-! # Reading a map file

`TextFile` reads white-space delimited words and numbers from a file, `MapFile` finds the table of
the public functions with it and reads an entry a line. Read errors of the file are left out.
-/

namespace Duma.MapFile

inductive ErrorType
  | none
  | «open»
  | parse
  deriving DecidableEq, Repr

/-- `TextFile`: what is still to be read, the number of the line and the error. -/
structure TextFile where
  rest : List UInt8
  line : ℕ
  err : ErrorType
  deriving DecidableEq, Repr

def isalnum (c : UInt8) : Bool := isdigit c || (65 ≤ c && c ≤ 90) || (97 ≤ c && c ≤ 122)

def hexDigit (c : UInt8) : Option ℕ :=
  if isdigit c then some (c.toNat - 48)
  else if 97 ≤ c ∧ c ≤ 102 then some (c.toNat - 87)
  else if 65 ≤ c ∧ c ≤ 70 then some (c.toNat - 55)
  else .none

/-- The number that `readHex` makes of digits; a `long` has 64 bits. -/
def hexNumber (digits : List UInt8) : ℕ :=
  Numeral.value 16 (digits.filterMap hexDigit) % 2 ^ 64

namespace TextFile

/-- A file that cannot be opened has no contents. -/
def «open» : Option (List UInt8) → TextFile
  | some contents => ⟨contents, 1, .none⟩
  | .none => ⟨[], 1, .open⟩

def readWhile (p : UInt8 → Bool) (f : TextFile) : List UInt8 × TextFile :=
  let read := f.rest.takeWhile p
  (read, { f with rest := f.rest.dropWhile p, line := f.line + read.count 10 })

def peekChar (f : TextFile) : Option UInt8 := if f.err ≠ .none then .none else f.rest.head?

def readChar (f : TextFile) : Option UInt8 × TextFile :=
  if f.err ≠ .none then (.none, f)
  else
    match f.rest with
    | [] => (.none, f)
    | ch :: rest => (some ch, { f with rest, line := if ch = 10 then f.line + 1 else f.line })

def skipWhitespace (f : TextFile) : TextFile :=
  if f.err ≠ .none then f else (f.readWhile isspace).2

/-- What `readString` has left in the buffer, if it has written to it. -/
def readString (f : TextFile) (size : ℕ) : Option (List UInt8) × TextFile :=
  if f.err ≠ .none then (.none, f)
  else
    let (word, f) := f.skipWhitespace.readWhile fun ch => !isspace ch
    (some (word.take (size - 1)), f)

def skipLine (f : TextFile) : TextFile :=
  if f.err ≠ .none then f else ((f.readWhile (· != 10)).2.readChar).2

def readHex (f : TextFile) : ℕ × TextFile :=
  if f.err ≠ .none then (0, f)
  else
    let f := f.skipWhitespace
    if f.peekChar.any isalnum then
      let (digits, f) := f.readWhile fun ch => (hexDigit ch).isSome
      (hexNumber digits, f)
    else (0, { f with err := .parse })

end TextFile

def cstr (buf : List UInt8) : List UInt8 := buf.takeWhile (· != 0)

/-- What a `MapFileEntry` holds; lengths are always 0. -/
structure MapFileEntry where
  sec : UInt32
  addr : UInt32
  name : List UInt8
  rvabase : UInt32
  lib : List UInt8
  deriving DecidableEq, Repr

/-- A `MapFileImpl` while it reads; its own error is a parse error in some line. -/
structure MapFileImpl where
  file : TextFile
  errLine : Option ℕ
  entries : List MapFileEntry
  deriving DecidableEq, Repr

namespace MapFileImpl

def error (m : MapFileImpl) : ErrorType := if m.errLine.isSome then .parse else m.file.err

def parse (m : MapFileImpl) (str : String) : MapFileImpl :=
  let (buf, file) := m.file.readString 256
  if buf.map cstr = some (Print.chars str) then { m with file }
  else { m with file, errLine := some file.line }

def parseChar (m : MapFileImpl) (ch : UInt8) : MapFileImpl :=
  let (ch2, file) := m.file.readChar
  if ch2 = some ch then { m with file } else { m with file, errLine := some file.line }

end MapFileImpl

/-- `nextLineEmpty`: the rest of the line is skipped, and blanks behind it. -/
def nextLineEmpty (f : TextFile) : Bool × TextFile :=
  let f := f.skipLine
  let f := if f.err ≠ .none then f else (f.readWhile fun ch => isspace ch && ch != 10).2
  (f.peekChar == some 10, f)

/-- The name up to `@@`. -/
def chop : List UInt8 → List UInt8
  | 64 :: 64 :: _ => []
  | c :: rest => c :: chop rest
  | [] => []

def isMangling (c : UInt8) : Bool := isdigit c || c == Print.chr '?' || c == Print.chr '$'

def dot (c : UInt8) : UInt8 := if c = 64 then Print.chr '.' else c

def entryName (buf : List UInt8) : List UInt8 × List UInt8 :=
  let name := chop (cstr buf)
  (name.takeWhile isMangling, (name.dropWhile isMangling).map dot)

/-- The buffers of `parseEntries`; a read that fails leaves in them what was there. -/
structure Buffers where
  buf : List UInt8
  lib : List UInt8

def parseEntry (b : Buffers) (m : MapFileImpl) : Buffers × MapFileImpl :=
  let (seg, file) := m.file.readHex
  let m := { m with file }.parseChar (Print.chr ':')
  let (offs, file) := m.file.readHex
  let (word, file) := file.readString 256
  let buf := word.getD b.buf
  let (rvabase, file) := file.readHex
  let (word, file) := file.readString 256
  let lib := word.getD b.lib
  let (word, file) := if cstr lib = Print.chars "f" then file.readString 256 else (some lib, file)
  let lib := word.getD lib
  let (front, name) := entryName buf
  (⟨front ++ name, lib⟩,
    { m with
      file
      entries := m.entries ++
        [⟨UInt32.ofNat seg, UInt32.ofNat offs, name, UInt32.ofNat rvabase, cstr lib⟩] })

def parseLoop : ℕ → Buffers → MapFileImpl → MapFileImpl
  | 0, _, m => m
  | fuel + 1, b, m =>
    if m.error ≠ .none then m
    else
      let (b, m) := parseEntry b m
      let (empty, file) := nextLineEmpty m.file
      if empty then { m with file } else parseLoop fuel b { m with file }

variable (stack : Buffers)

/-- `stack` is what the buffers hold before anything is read into them. -/
def parseEntries (fuel : ℕ) (m : MapFileImpl) : MapFileImpl :=
  let m := ((((m.parse "Publics").parse "by").parse "Value").parse "Rva+Base").parse "Lib:Object"
  parseLoop fuel stack { m with file := m.file.skipWhitespace }

def readLoop (bound : ℕ) : ℕ → MapFileImpl → MapFileImpl
  | 0, m => m
  | fuel + 1, m =>
    match m.file.readString 1024 with
    | (some (c :: word), file) =>
      if cstr (c :: word) = Print.chars "Address" then
        readLoop bound fuel (parseEntries stack bound { m with file })
      else readLoop bound fuel { m with file := file.skipLine }
    | (_, file) => { m with file }

/-- The name of the module, and what is read behind it. Every round of the loops reads a character
or is the last. -/
def readMap (contents : Option (List UInt8)) : List UInt8 × MapFileImpl :=
  let (name, file) := (TextFile.open contents).readString 256
  let bound := (contents.getD []).length + 2
  ((name.map cstr).getD [], readLoop stack bound bound ⟨file, .none, []⟩)

end Duma.MapFile

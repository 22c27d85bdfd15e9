import Duma.Foundation.Word
import Duma.Model.Strings

/-! # Printing

The routines of `print.c`, which print without `stdio` into local buffers. A buffer is the memory
from its first byte on; what is written to it is recorded by the first index above all writes. The
`int` that counts the characters is unbounded: the buffer is long overrun when it would wrap.
-/

namespace Duma.Print

def chr (c : Char) : UInt8 := UInt8.ofNat c.toNat

def chars (s : String) : List UInt8 := s.toList.map chr

/-- `sizeof(DUMA_ADDR) * NBBY` -/
def numberBufferSize : ℕ := 64

def stringBufferSize : ℕ := 4096

/-- An argument as it is passed: `DUMA_ADDR` and `DUMA_SIZE` are the 64-bit unsigned type, and
characters are passed as `int`. -/
inductive Arg
  | word (n : ℕ)
  | int (n : ℤ)
  | long (n : ℤ)
  | string (s : Option (List UInt8))
  deriving DecidableEq, Repr

inductive Halt
  /-- `DUMA_Abort("Internal error printing number.")` -/
  | internalError
  /-- `va_arg` finds no argument or one of another type -/
  | badArgument
  /-- the bound on the rounds of the scan was reached -/
  | outOfFuel
  deriving DecidableEq, Repr

structure Frame where
  buffer : ℕ → UInt8
  /-- the first index above all that were written -/
  reach : ℕ
  /-- the first index of the pattern above all that were read -/
  read : ℕ
  args : List Arg
  /-- the messages of `DUMA_Print` about bad specifiers, newest first, each with the reach in the
  buffer that it was put together in -/
  warnings : List (List UInt8 × ℕ)

abbrev PrintM := EStateM Halt Frame

/-- The frame in which a function starts: `stack` is what its buffer holds then. -/
def Frame.fresh (stack : ℕ → UInt8) (args : List Arg) : Frame := ⟨stack, 0, 0, args, []⟩

def Frame.put (f : Frame) (i : ℕ) (c : UInt8) : Frame :=
  { f with buffer := fun x => if x = i then c else f.buffer x, reach := max f.reach (i + 1) }

def putChar (i : ℕ) (c : UInt8) : PrintM Unit := modify fun f => f.put i c

def strcpy (i : ℕ) : List UInt8 → PrintM Unit
  | [] => putChar i 0
  | c :: rest => do
    putChar i c
    strcpy (i + 1) rest

def fetch (pattern : ℕ → UInt8) (s : ℕ) : PrintM UInt8 := do
  modify fun f => { f with read := max f.read (s + 1) }
  pure (pattern s)

def nextArg : PrintM Arg := do
  match (← get).args with
  | [] => throw .badArgument
  | a :: rest =>
    modify fun f => { f with args := rest }
    pure a

section Numbers

def digitChar (digit : ℤ) : UInt8 :=
  UInt8.ofNat ((if digit < 10 then 48 + digit else 97 + digit - 10) % 256).toNat

/-- The loop of `sprintAddr`, with the index of `s` in the local buffer and the digits from there
to its end. -/
def addrDigits (base : ℕ) : ℕ → ℕ → List UInt8 → Option (List UInt8)
  | 0, _, _ => none
  | s + 1, value, digits =>
    if s = 0 then none
    else
      let digits := digitChar (value % base : ℕ) :: digits
      let value := value / base
      if 0 < value then addrDigits base s value digits else some digits

def sprintAddr (dest value base : ℕ) : PrintM ℕ := do
  match addrDigits base numberBufferSize value [] with
  | none => throw .internalError
  | some s =>
    strcpy dest s
    pure s.length

/-- The loop of `sprintLong`; division rounds to zero. -/
def longDigits (base : ℤ) : ℕ → ℤ → List UInt8 → Option (List UInt8)
  | 0, _, _ => none
  | s + 1, value, digits =>
    if s = 0 then none
    else
      let digits := digitChar (value.tmod base) :: digits
      let value := value.tdiv base
      if 0 < value then longDigits base s value digits else some digits

def sprintLong (dest : ℕ) (value base : ℤ) : PrintM ℕ := do
  match longDigits base numberBufferSize value [] with
  | none => throw .internalError
  | some s =>
    strcpy dest s
    pure s.length

/-- What `%i` and `%l` do with a `long`: the sign, and the number without it. -/
def putLong (dest len : ℕ) (n : ℤ) : PrintM ℕ := do
  if n < 0 then
    putChar (dest + len) (chr '-')
    let len := len + 1
    let n := Word.toInt (-n)
    pure (len + (← sprintLong (dest + len) n 10))
  else pure (len + (← sprintLong (dest + len) n 10))

end Numbers

section Scan

variable (warn : UInt8 → PrintM Unit) (pattern : ℕ → UInt8) (dest : ℕ)

/-- The `switch` on the character behind a `%`. -/
def directive (c : UInt8) (len : ℕ) : PrintM ℕ := do
  if c = chr '%' then
    putChar (dest + len) c
    pure (len + 1)
  else if c = chr 'a' ∨ c = chr 'x' then
    match ← nextArg with
    | .word n => pure (len + (← sprintAddr (dest + len) n 16))
    | _ => throw .badArgument
  else if c = chr 'd' then
    match ← nextArg with
    | .word n => pure (len + (← sprintAddr (dest + len) n 10))
    | _ => throw .badArgument
  else if c = chr 'i' then
    match ← nextArg with
    | .int n => putLong dest len n
    | _ => throw .badArgument
  else if c = chr 'l' then
    match ← nextArg with
    | .long n => putLong dest len n
    | _ => throw .badArgument
  else if c = chr 's' then
    match ← nextArg with
    | .string s =>
      let s := s.getD (chars "NULL")
      strcpy (dest + len) s
      pure (len + s.length)
    | _ => throw .badArgument
  else if c = chr 'c' then
    match ← nextArg with
    | .int n =>
      putChar (dest + len) (UInt8.ofNat (n % 256).toNat)
      pure (len + 1)
    | _ => throw .badArgument
  else
    warn c
    pure len

/-- `while (c)` of `DUMA_vsprintf`, `c` being the character before index `s`. -/
def scan : ℕ → UInt8 → ℕ → ℕ → PrintM ℕ
  | 0, _, _, _ => throw .outOfFuel
  | fuel + 1, c, s, len => do
    if c = 0 then pure len
    else if c = chr '%' then
      let c ← fetch pattern s
      let len ← directive warn dest c len
      scan fuel (← fetch pattern (s + 1)) (s + 2) len
    else
      putChar (dest + len) c
      scan fuel (← fetch pattern s) (s + 1) (len + 1)

/-- `DUMA_vsprintf` with the buffer from index `dest` on. -/
def vsprintf (fuel : ℕ) : PrintM ℕ := do
  let len ← scan warn pattern dest fuel (← fetch pattern 0) 1 0
  putChar (dest + len) 0
  pure len

end Scan

def literal (s : List UInt8) : ℕ → UInt8 := fun i => s.getD i 0

def badPattern : List UInt8 := chars "\nDUMA: Bad pattern specifier %%%c in DUMA_Print().\n"

def Frame.output (f : Frame) (len : ℕ) : List UInt8 := (List.range len).map f.buffer

/-- `DUMA_Print(bad_pattern, c)`, in which there are no bad specifiers. -/
def warnBadPattern (stack : ℕ → UInt8) (c : UInt8) : PrintM Unit := do
  match vsprintf (fun _ => pure ()) (literal badPattern) 0 (badPattern.length + 1)
    (Frame.fresh stack [.int c.toNat]) with
  | .ok len f => modify fun g => { g with warnings := (f.output len, f.reach) :: g.warnings }
  | .error e _ => throw e

/-- `DUMA_Print`: the message that it writes to the outputs, as the buffer holds it. -/
def DUMA_Print (stack pattern : ℕ → UInt8) (fuel : ℕ) : PrintM (List UInt8) := do
  let len ← vsprintf (warnBadPattern stack) pattern 0 fuel
  pure ((← get).output len)

def strlen : PrintM ℕ := do
  let f ← get
  match Strings.strlenWithin f.buffer 0 f.reach with
  | some len => pure len
  | none => throw .outOfFuel

/-- What `DUMA_Abort` and `DUMA_Exit` do before they end the process: the message behind a `lead`,
and how far the `DUMA_Print` at their end reaches in its own buffer. -/
def lastWords (lead : List UInt8) (stack pattern : ℕ → UInt8) (fuel : ℕ) :
    PrintM (List UInt8 × ℕ) := do
  strcpy 0 lead
  let lena ← strlen
  let _ ← vsprintf (warnBadPattern stack) pattern lena fuel
  let len ← strlen
  strcpy len (chars "\n")
  let message := (← get).output (← strlen)
  match DUMA_Print stack (literal (chars "%s")) 3 (Frame.fresh stack [.string (some message)]) with
  | .ok out f => pure (out, f.reach)
  | .error e _ => throw e

def DUMA_Abort : (stack pattern : ℕ → UInt8) → (fuel : ℕ) → PrintM (List UInt8 × ℕ) :=
  lastWords (chars "\nDUMA Aborting: ")

def DUMA_Exit : (stack pattern : ℕ → UInt8) → (fuel : ℕ) → PrintM (List UInt8 × ℕ) :=
  lastWords (chars "\nDUMA Exiting: ")

end Duma.Print

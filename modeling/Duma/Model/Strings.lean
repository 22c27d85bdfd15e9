import Duma.Foundation.Wp
import Mathlib.Algebra.Order.Ring.Nat

/-! # Copying memory and strings

The copy functions work in place, byte by byte, behind tests for overlapping regions. Pointers
stay inside the address space, as pointer arithmetic demands, so they are plain numbers.
-/

namespace Duma.Strings

abbrev Bytes := ℕ → UInt8

def Bytes.put (m : Bytes) (address : ℕ) (c : UInt8) : Bytes :=
  fun x => if x = address then c else m x

/-- The functions that report overlapping memory regions. -/
inductive CopyFunction
  | memcpy
  | strcpy
  | strncpy
  | strcat
  | strncat
  deriving DecidableEq, Repr

inductive Halt
  /-- `"memory regions overlap"`, with the arguments of the call -/
  | overlap (f : CopyFunction) (dest src : ℕ) (size : Option ℕ)
  /-- a string without an end -/
  | fault
  /-- a loop counter that never reaches its end -/
  | loops
  deriving DecidableEq, Repr

abbrev BytesM := EStateM Halt Bytes

section Loops

def copyUp (m : Bytes) (d s : ℕ) : ℕ → Bytes
  | 0 => m
  | size + 1 => copyUp (m.put d (m s)) (d + 1) (s + 1) size

/-- `d += size; s += size; while (s > src) *--d = *--s;` -/
def copyDown (m : Bytes) (d s : ℕ) : ℕ → Bytes
  | 0 => m
  | size + 1 => copyDown (m.put (d + size) (m (s + size))) d s size

def fillZero (m : Bytes) (d : ℕ) : ℕ → Bytes
  | 0 => m
  | size + 1 => fillZero (m.put d 0) (d + 1) size

/-- Copy up to `size` characters or to the terminator, and fill the rest with zeros. -/
def copyPadded (m : Bytes) (d s : ℕ) : ℕ → Bytes
  | 0 => m
  | size + 1 =>
    if m s ≠ 0 then copyPadded (m.put d (m s)) (d + 1) (s + 1) size
    else fillZero m d (size + 1)

def strnlen (m : Bytes) (src : ℕ) : ℕ → ℕ
  | 0 => 0
  | size + 1 => if m src ≠ 0 then strnlen m (src + 1) size + 1 else 0

def strlenWithin (m : Bytes) (src : ℕ) : ℕ → Option ℕ
  | 0 => none
  | size + 1 => if m src ≠ 0 then (strlenWithin m (src + 1) size).map (· + 1) else some 0

/-- `strlen`, which stops at the end of the address space at the latest. -/
def strlen (src : ℕ) : BytesM ℕ := do
  match strlenWithin (← get) src (2 ^ 64) with
  | some len => pure len
  | none => throw .fault

end Loops

/-- `_duma_memcpy`; the counter of its loop has 32 bits. -/
def memcpy (memcpyOverlap : Bool) (dest src size : ℕ) : BytesM ℕ := do
  if src < dest ∧ dest < src + size ∨
      dest < src ∧ src < dest + size ∧ memcpyOverlap = false then
    throw (.overlap .memcpy dest src (some size))
  if 2 ^ 32 ≤ size then throw .loops
  modify fun m => copyUp m dest src size
  pure dest

def memmove (dest src size : ℕ) : BytesM ℕ := do
  if dest < src then modify fun m => copyUp m dest src size
  else modify fun m => copyDown m dest src size
  pure dest

def strcpy (dest src : ℕ) : BytesM ℕ := do
  let size := (← strlen src) + 1
  if src < dest ∧ dest < src + size then throw (.overlap .strcpy dest src none)
  modify fun m => copyUp m dest src size
  pure dest

def strncpy (dest src size : ℕ) : BytesM ℕ := do
  let srclen := strnlen (← get) src size
  if 0 < size ∧ (src < dest ∧ dest < src + srclen ∨ dest < src ∧ src < dest + size) then
    throw (.overlap .strncpy dest src (some size))
  modify fun m => copyPadded m dest src size
  pure dest

/-- `_duma_strcat`; the counter of its loop has 32 bits. -/
def strcat (dest src : ℕ) : BytesM ℕ := do
  let destlen ← strlen dest
  let srcsize := (← strlen src) + 1
  if src < dest + destlen ∧ dest + destlen < src + srcsize then
    throw (.overlap .strcat dest src none)
  if 2 ^ 32 ≤ srcsize then throw .loops
  modify fun m => copyUp m (dest + destlen) src srcsize
  pure dest

/-- `_duma_strncat`; the counter of its loop has 32 bits. -/
def strncat (dest src size : ℕ) : BytesM ℕ := do
  if size = 0 then pure dest
  else
    let destlen ← strlen dest
    let srclen := strnlen (← get) src size
    if src < dest + destlen ∧ dest + destlen < src + srclen + 1 then
      throw (.overlap .strncat dest src (some size))
    if 2 ^ 32 ≤ srclen then throw .loops
    modify fun m => (copyUp m (dest + destlen) src srclen).put (dest + destlen + srclen) 0
    pure dest

section Counters

/-- `for (i = 0; goes(i); ++i) d[i] = s[i];` from a value of the 32-bit counter `i` on, with the
offsets that have been written, oldest first. -/
def copyFrom (goes : BitVec 32 → Bool) (d s : ℕ) :
    ℕ → BitVec 32 → Bytes × List ℕ → Option (Bytes × List ℕ)
  | 0, _, _ => none
  | fuel + 1, i, (m, offsets) =>
    if goes i then
      copyFrom goes d s fuel (i + 1) (m.put (d + i.toNat) (m (s + i.toNat)), offsets ++ [i.toNat])
    else some (m, offsets)

/-- The loop of `_duma_memcpy`. The counter is converted to `size_t` for the comparison. -/
def memcpyLoop (d s : ℕ) (size : BitVec 64) :
    ℕ → BitVec 32 → Bytes × List ℕ → Option (Bytes × List ℕ) :=
  copyFrom (fun i => i.setWidth 64 < size) d s

def strdupLoop (dup str : ℕ) (size : BitVec 64) :
    ℕ → BitVec 32 → Bytes × List ℕ → Option (Bytes × List ℕ) :=
  copyFrom (fun i => i.setWidth 64 ≤ size) dup str

def strcatLoop (dest src destlen : ℕ) (srcsize : BitVec 64) :
    ℕ → BitVec 32 → Bytes × List ℕ → Option (Bytes × List ℕ) :=
  copyFrom (fun i => i.setWidth 64 < srcsize) (dest + destlen) src

def strncatLoop (dest src destlen : ℕ) (srclen : BitVec 64) :
    ℕ → BitVec 32 → Bytes × List ℕ → Option (Bytes × List ℕ) :=
  copyFrom (fun i => i.setWidth 64 < srclen) (dest + destlen) src

end Counters

end Duma.Strings

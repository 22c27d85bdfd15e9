import Mathlib.Data.Int.Notation
import Mathlib.Data.Nat.Notation
import Mathlib.Data.List.Nodup

/-! # Map files

`MapFile` holds the functions of a linker's map file as an array of pointers to entries, which it
sorts after it has read the file. Of an entry only its base address is read in a search.
-/

namespace Duma.MapFile

/-- A `MapFileEntry` at the address that `new` has placed it at. Base addresses are parsed as
`unsigned int`. -/
structure Entry where
  place : ℕ
  rvabase : UInt32
  deriving DecidableEq, Repr

def Entry.base (e : Entry) : ℤ := e.rvabase.toNat

/-- `getEntry(i)`; an index outside of the array is an error. -/
def getEntry (entries : List Entry) (i : ℤ) : Option Entry :=
  if 0 ≤ i then entries[i.toNat]? else none

/-- The loop of `findEntry` for the indices below a bound, from the last one down. -/
def search (entries : List Entry) (addr : ℤ) : ℕ → Option ℤ
  | 0 => some (-1)
  | i + 1 => do
    if (← getEntry entries i).base ≤ addr then some i else search entries addr i

end Duma.MapFile

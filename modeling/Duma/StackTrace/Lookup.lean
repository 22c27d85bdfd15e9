import Duma.Model.MapFile
import Mathlib.Algebra.Order.Ring.Int

/-! # Looking up a function

The search takes the last entry whose base is not above the address. The array is sorted by the
places of the entries, so the last one is the one that was placed highest.
-/

namespace Duma.MapFile

variable {file : Parsed} {es : List Entry} {e : Entry} {addr r : ℤ} {i n : ℕ}

end Duma.MapFile

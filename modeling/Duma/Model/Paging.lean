import Duma.Model.State

/-! # Page allocation and protection

`mmap` returns a fresh page-aligned range or fails; `mprotect` fails on a range that is not
mapped throughout; `munmap` may be refused, and the pages are then made inaccessible instead.
`Page_Create` passes its size to `mmap` as an `int`, so the length is a function of the size here.
-/

namespace Duma

variable (env : Env)

/-- The bytes of the pages that `size` bytes from a page boundary reach. -/
def Env.roundUp (size : ℕ) : ℕ := (size + env.pageSize - 1) / env.pageSize * env.pageSize

/-- The address of the next mapping of `size` bytes, if the operating system grants it. -/
def State.grant (s : State) (size : ℕ) : Option ℕ :=
  match env.mmap s.book.mmapCalls with
  | none => none
  | some a =>
    if 0 < size ∧ env.pageSize ∣ a ∧ 0 < a ∧ a + env.roundUp size ≤ env.taskSize ∧
      s.pages.all env.pageSize a (a + env.roundUp size) (· == .unmapped) = true then some a
    else none

/-- The pages of `[a, a + size)` are mapped, readable and writable, and hold zeros. -/
def State.created (s : State) (a size : ℕ) : State :=
  let s := s.setPages env a (a + env.roundUp size) .readWrite
  let s := { s with mem := fun x => if a ≤ x ∧ x < a + env.roundUp size then 0 else s.mem x }
  s.log (.create a (env.roundUp size))

/-- The pages of `[a, a + size)` are given back, or at least denied. -/
def State.deleted (s : State) (a size : ℕ) (p : Page) : State :=
  (s.setPages env a (a + env.roundUp size) p).log (.delete a (env.roundUp size))

/-- `(int)size`, converted to the `size_t` that `mmap` takes. -/
def intSize (size : ℕ) : ℕ := ((BitVec.ofNat 32 size).signExtend 64).toNat

/-- `Page_Create`, where `mmap` gets the length `len size`. -/
def pageCreateBy (len : ℕ → ℕ) (size : ℕ) (exitonfail : Bool) : M ℕ := do
  let granted := (← get).grant env (len size)
  modifyBook fun b => { b with mmapCalls := b.mmapCalls + 1 }
  match granted with
  | some a =>
    modify fun s => s.created env a (len size)
    pure a
  | none => if exitonfail then abort (.mmapFailed size) else pure 0

/-- `Page_Create` on a target with an `int` of 32 bits. -/
abbrev pageCreateInt (size : ℕ) (exitonfail : Bool) : M ℕ :=
  pageCreateBy env intSize size exitonfail

/-- `Page_Create` that maps all that it is asked for. -/
abbrev pageCreate (size : ℕ) (exitonfail : Bool) : M ℕ := pageCreateBy env id size exitonfail

def mprotect (address size : ℕ) (p : Page) : M Unit := do
  let s ← get
  let stop := address + env.roundUp size
  if env.pageSize ∣ address ∧ stop ≤ env.taskSize ∧
      s.pages.all env.pageSize address stop (· != .unmapped) = true then
    modify fun s => s.setPages env address stop p
  else
    abort .mprotectFailed

def pageAllowAccess (address size : ℕ) : M Unit := mprotect env address size .readWrite

def pageDenyAccess (address size : ℕ) : M Unit := mprotect env address size .noAccess

/-- `munmap`, which refuses a misaligned address and an empty range. -/
def munmap (address size : ℕ) : M Bool := do
  let s ← get
  modifyBook fun b => { b with munmapCalls := b.munmapCalls + 1 }
  pure (env.munmap s.book.munmapCalls && decide (env.pageSize ∣ address ∧ 0 < size ∧
    address + env.roundUp size ≤ env.taskSize))

def pageDelete (address size : ℕ) : M Unit := do
  if ← munmap env address size then
    modify fun s => s.deleted env address size .unmapped
  else
    pageDenyAccess env address size
    modify fun s => s.log (.delete address (env.roundUp size))

end Duma

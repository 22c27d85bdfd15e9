import Duma.Model.Allocate

/-! # Deallocation and growth of the slot list

`_duma_deallocate` finds the slot of an address, checks it and either protects its memory or
deletes it. `allocateMoreSlots` moves the slot list into a larger block of the same allocator
and deallocates the old one.
-/

namespace Duma

variable (env : Env)

/-- Find the slot that may be freed, or report what is wrong with the address. -/
def slotToFree (address : ℕ) (allocator : Allocator) (site : Site) : M (ℕ × Slot) := do
  match ← slotForUserAddress env address with
  | none =>
    let nearest ← nearestSlotForUserAddress env address
    abort (.freeUnknown address (nearest.map (·.2)))
  | some (i, sl) =>
    if sl.state = .allProtected ∨ sl.state = .beginProtected then abort (.alreadyFreed address sl)
    else if sl.allocator.type ≠ allocator.type then abort (.freeMismatch sl allocator site)
    else pure (i, sl)

/-- Reduce protected memory when there is need for it and a way to free so much. -/
def reduceForFree (internalSizekB : ℕ) : M Unit := do
  let s ← get
  if 0 < s.cfg.protectFree ∧ s.cfg.protectFree < s.book.sumProtectedMem + internalSizekB ∧
      (internalSizekB : ℤ) < s.cfg.protectFree ∧
      (internalSizekB : ℤ) ≤ s.book.sumProtectedMem then
    let _ ← reduceProtectedMemory env internalSizekB

def State.keepsProtected (s : State) (sl : Slot) (internalSizekB : ℕ) : Bool :=
  sl.allocator != .intAlloc && decide (s.cfg.protectFree < 0 ∨
    0 < s.cfg.protectFree ∧ s.book.sumProtectedMem + internalSizekB ≤ s.cfg.protectFree)

def Slot.freedAt (sl : Slot) (site : Site) : Slot :=
  if site.lineno ≠ 0 then
    { sl with fileSource := .deallocation, filename := site.filename, lineno := site.lineno }
  else sl

def protectSlot (i : ℕ) (sl : Slot) (site : Site) : M Unit := do
  modifySlot env i fun sl => { sl with state := .allProtected }
  pageDenyAccess env sl.internalAddress sl.internalSize
  modifyBook fun b => { b with sumProtectedMem := b.sumProtectedMem + kB sl.internalSize }
  modifySlot env i fun sl => sl.freedAt site

def deleteSlot (i : ℕ) (sl : Slot) : M Unit := do
  pageDelete env sl.internalAddress sl.internalSize
  modifyBook fun b => { b with sumAllocatedMem := b.sumAllocatedMem - kB sl.internalSize }
  modifySlot env i Slot.emptied
  modifyBook fun b => { b with unUsedSlots := Word.add b.unUsedSlots 1 }

def freeSlot (i : ℕ) (sl : Slot) (site : Site) : M Unit := do
  modifyBook fun b => { b with numDeallocs := b.numDeallocs + 1 }
  checkSlack env sl
  -- each byte is written and gets its old value back
  if (← get).cfg.freeAccess then touch env sl.userAddress sl.userEnd
  reduceForFree env (kB sl.internalSize)
  if (← get).keepsProtected sl (kB sl.internalSize) then protectSlot env i sl site
  else deleteSlot env i sl

/-- `_duma_deallocate` -/
def deallocate (address : ℕ) (protectAllocList : Bool) (allocator : Allocator) (site : Site) :
    M Unit := do
  let s ← get
  if s.allocList = 0 then abort .freeBeforeMalloc
  if address = 0 ∨ address = s.nullAddr env then pure ()
  else
    if protectAllocList then openAllocList env
    checkByFreq env
    let (i, sl) ← slotToFree env address allocator site
    freeSlot env i sl site
    if protectAllocList then closeAllocList env

/-- The checks and the accesses of `_duma_memcpy`, whose loop has a 32-bit counter. -/
def memcpyAccess (dest src size : ℕ) : M Unit := do
  let s ← get
  if src < dest ∧ dest < src + size ∨
      dest < src ∧ src < dest + size ∧ s.cfg.memcpyOverlap = false then
    abort (.memcpyOverlap dest src size)
  touch env src (src + min size (2 ^ 32))
  touch env dest (dest + min size (2 ^ 32))
  if 2 ^ 32 ≤ size then throw .loops

def State.listRequest (s : State) : Request where
  alignment := 1
  userSize := Word.add s.allocListSize env.pageSize
  protectBelow := false
  fillByte := -1
  protectAllocList := false
  allocator := .intAlloc
  fail := .failNull
  site := ⟨some "duma.c", 1233⟩

/-- The copied list, followed by a page of zeros. -/
def State.switchList (s : State) (newAllocation newSize : ℕ) : State :=
  { s with
    allocList := newAllocation
    allocListSize := newSize
    slots := s.slots ++ List.replicate env.slotsPerPage Slot.zero
    book := { s.book with unUsedSlots := Word.add s.book.unUsedSlots env.slotsPerPage } }

/-- `allocateMoreSlots`, where `mmap` gets the length `len size` for a chunk of `size` bytes. -/
def allocateMoreSlotsBy (len : ℕ → ℕ) : M Unit := do
  let s ← get
  let newSize := Word.add s.allocListSize env.pageSize
  let oldAllocation := s.allocList
  let newAllocation ← allocateWithBy env len (pure ()) (s.listRequest env)
  if newAllocation = 0 then pure ()
  else
    memcpyAccess env newAllocation oldAllocation s.allocListSize
    touch env (newAllocation + s.allocListSize) (newAllocation + s.allocListSize + env.pageSize)
    modify fun s => s.switchList env newAllocation newSize
    deallocate env oldAllocation false .intDealloc ⟨some "duma.c", 1259⟩

/-- `_duma_allocate`, with the lengths that `mmap` gets. -/
def allocateBy (len : ℕ → ℕ) (r : Request) : M ℕ :=
  allocateWithBy env len (allocateMoreSlotsBy env len) r

/-- `_duma_allocate` on a target with an `int` of 32 bits. -/
abbrev allocateInt (r : Request) : M ℕ := allocateBy env intSize r

/-! The allocation whose chunks are mapped in full. -/

abbrev allocateMoreSlots : M Unit := allocateMoreSlotsBy env id

abbrev allocate (r : Request) : M ℕ := allocateBy env id r

end Duma

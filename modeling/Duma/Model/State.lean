import Duma.Foundation.PageMap
import Duma.Foundation.Word
import Duma.Model.Slot

/-! # The state of the allocator

The variables of `_duma_s` and `_duma_g`, the page permissions and bytes of the address space,
and the trace of page creations, page deletions, slot state changes and unsuccessful evictions. A
program either returns or stops, by an abort of the allocator or by a memory fault.
-/

namespace Duma

/-- What the hardware lets the process do with a page. -/
inductive Page
  | unmapped
  | noAccess
  | readWrite
  deriving DecidableEq, Repr

/-- The platform: its page size, the part of the address space that belongs to the process,
and the answers of the operating system to the successive calls of `mmap` and `munmap`. -/
structure Env where
  /-- `DUMA_PAGE_SIZE` -/
  pageSize : ℕ
  /-- end of the addresses the kernel maps for a process -/
  taskSize : ℕ
  /-- the address proposed by the `k`-th `mmap` -/
  mmap : ℕ → Option ℕ
  /-- whether the `k`-th `munmap` is carried out -/
  munmap : ℕ → Bool
  /-- pages of the process that exist before the allocator does, and their bytes -/
  boot : PageMap Page
  bootMem : ℕ → UInt8
  /-- built with `DUMA_EXPLICIT_INIT` -/
  explicitInit : Bool
  /-- `DUMA_MIN_ALIGNMENT` -/
  minAlignment : ℤ
  pageSize_pow : pageSize.isPowerOfTwo
  pageSize_ge : 1024 ≤ pageSize
  pageSize_lt : pageSize < 2 ^ 20
  taskSize_le : taskSize ≤ 2 ^ 62
  boot_null : boot.get pageSize 0 = .unmapped

def Env.slotsPerPage (env : Env) : ℕ := env.pageSize / sizeofSlot

/-- The variables of `_duma_s` that the environment sets. -/
structure Config where
  checkFreq : ℤ
  reportAllLeaks : Bool
  slackfill : UInt8
  protectFree : ℤ
  maxAlloc : ℤ
  malloc0Strategy : ℕ
  new0Strategy : ℕ
  mallocFailexit : Bool
  freeAccess : Bool
  memcpyOverlap : Bool
  deriving DecidableEq, Repr

def Config.initial : Config where
  checkFreq := 0
  reportAllLeaks := false
  slackfill := 0xAA
  protectFree := -1
  maxAlloc := -1
  malloc0Strategy := 3
  new0Strategy := 3
  mallocFailexit := true
  freeAccess := false
  memcpyOverlap := false

/-- The variables that `DUMA_SET_ALIGNMENT` and its like set. -/
structure Tls where
  alignment : ℤ
  protectBelow : Bool
  fill : ℤ
  deriving DecidableEq, Repr

/-- The counters of `_duma_s`, the depth of the lock and the number of system calls made. The
`long` counters are unbounded, `unUsedSlots` is a word. -/
structure Book where
  unUsedSlots : ℕ
  sumAllocatedMem : ℤ
  sumTotalAllocatedMem : ℤ
  sumProtectedMem : ℤ
  numDeallocs : ℤ
  numAllocs : ℤ
  checkFreqCounter : ℤ
  semDepth : ℕ
  mmapCalls : ℕ
  munmapCalls : ℕ
  deriving DecidableEq, Repr

/-- What the trace records, newest event first. -/
inductive Event
  /-- `Page_Create` returned `[address, address + size)` -/
  | create (address size : ℕ)
  /-- `[address, address + size)` was given to `Page_Delete` -/
  | delete (address size : ℕ)
  /-- slot `index` changed its state -/
  | state (index : ℕ) (old new : SlotState)
  /-- an eviction found only `sizekB` kB to give up, less than it was asked for -/
  | shortfall (sizekB : ℕ)
  deriving DecidableEq, Repr

structure State where
  cfg : Config
  tls : Tls
  book : Book
  /-- `init_state` is `DUMAIS_OUT_INIT` -/
  initDone : Bool
  nullBlock : ℕ
  allocList : ℕ
  allocListSize : ℕ
  /-- the `slotCount` records at `allocList` -/
  slots : List Slot
  pages : PageMap Page
  mem : ℕ → UInt8
  trace : List Event

/-- The messages that `DUMA_Abort` ends the process with. -/
inductive Report
  /-- `mmap(%d) failed: %s` -/
  | mmapFailed (size : ℕ)
  /-- `mprotect() failed: %s. …` -/
  | mprotectFailed
  /-- `MMAP failed for null block creation in init` -/
  | nullBlockFailed
  /-- `Allocating 0 bytes, probably a bug at %s(%i). See DUMA_ALLOW_MALLOC_0.` -/
  | malloc0 (site : Site)
  /-- `Alignment (=%d) is not a power of 2; requested from %s(%i)` -/
  | notPowerOfTwo (alignment : ℕ) (site : Site)
  /-- `Internal error in allocator: No empty slot %i.` -/
  | noEmptySlot (index : ℕ)
  /-- `ptr=%a: detected overwrite of ptrs no mans land below userSpace, …` -/
  | slackBelow (slot : Slot)
  /-- `detected overwrite of no mans land above userSpace: ptr=%a, …` -/
  | slackAbove (slot : Slot)
  /-- `free() called before first malloc().` -/
  | freeBeforeMalloc
  /-- `free(%a): address not from DUMA or already freed. …` with the nearest slot, if any -/
  | freeUnknown (address : ℕ) (nearest : Option Slot)
  /-- `free(%a): memory already freed …` -/
  | alreadyFreed (address : ℕ) (slot : Slot)
  /-- `Free mismatch: allocator '%s' used … but deallocator '%s' called …` -/
  | freeMismatch (slot : Slot) (deallocator : Allocator) (site : Site)
  /-- `check(%a): address not from DUMA or already freed. …` -/
  | checkUnknown (address : ℕ) (nearest : Option Slot)
  /-- `check(%a): memory already freed …` -/
  | checkFreed (address : ℕ) (slot : Slot)
  /-- `realloc(%a, %d): address not from malloc().` -/
  | reallocUnknown (address newSize : ℕ)
  /-- `malloc_usable_size() called before first malloc().` -/
  | usableSizeBeforeMalloc
  /-- `malloc_usable_size(%a): address not from malloc.` -/
  | usableSizeUnknown (address : ℕ)
  /-- `memcpy(%a, %a, %d): memory regions overlap at %s(%i).` -/
  | memcpyOverlap (dest src size : ℕ)
  /-- `Semaphore isn't locked` -/
  | semaphoreNotLocked
  /-- `malloc() is not bound to DUMA. …` and its like for `free()` -/
  | notBound
  deriving DecidableEq, Repr

/-- How a program ends when it does not return. -/
inductive Stop
  | abort (report : Report)
  /-- a failed `DUMA_ASSERT` -/
  | assertion
  /-- an access to a page that does not allow it -/
  | segv (address : ℕ)
  /-- the copy of `*fullSlot` through an `emptySlots[0]` that is `NULL` -/
  | nullSlot
  /-- a loop whose 32-bit counter never reaches its 64-bit limit -/
  | loops
  /-- the bound on the rounds of the retry loop was reached -/
  | outOfFuel
  /-- raw bytes were stored over the records of the list; what follows is not modelled -/
  | listOverwritten (address : ℕ)
  deriving DecidableEq, Repr

abbrev M := EStateM Stop State

def abort {α : Type} (r : Report) : M α := throw (.abort r)

def State.nullAddr (env : Env) (s : State) : ℕ := s.nullBlock + env.pageSize

def State.page (env : Env) (s : State) (x : ℕ) : Page := s.pages.get env.pageSize x

def State.accessible (env : Env) (s : State) (lo hi : ℕ) : Bool :=
  s.pages.all env.pageSize lo hi (· == .readWrite)

def State.setPages (env : Env) (s : State) (lo hi : ℕ) (p : Page) : State :=
  { s with pages := s.pages.fill env.pageSize lo hi p }

def State.log (s : State) (e : Event) : State := { s with trace := e :: s.trace }

/-- Store record `sl` at index `i`, recording a change of state. -/
def State.putSlot (s : State) (i : ℕ) (sl : Slot) : State :=
  match s.slots[i]? with
  | none => s
  | some old =>
    let s := { s with slots := s.slots.set i sl }
    if old.state = sl.state then s else s.log (.state i old.state sl.state)

def State.store (s : State) (lo hi : ℕ) (f : ℕ → UInt8) : State :=
  { s with mem := fun x => if lo ≤ x ∧ x < hi then f x else s.mem x }

variable (env : Env)

def modifyBook (f : Book → Book) : M Unit := modify fun s => { s with book := f s.book }

def touch (lo hi : ℕ) : M Unit := do
  if (← get).accessible env lo hi then pure () else throw (.segv lo)

def storeRange (lo hi : ℕ) (f : ℕ → UInt8) : M Unit := do
  touch env lo hi
  let s ← get
  if lo < hi ∧ lo < s.allocList + s.allocListSize ∧ s.allocList < hi then
    throw (.listOverwritten (max lo s.allocList))
  else modify fun s => s.store lo hi f

/-- The records of the list; reading them takes access to its pages. -/
def readSlots : M (List Slot) := do
  let s ← get
  touch env s.allocList (s.allocList + s.allocListSize)
  pure s.slots

def readSlot (i : ℕ) : M Slot := do
  match (← readSlots env)[i]? with
  | some sl => pure sl
  | none => throw (.segv ((← get).allocList + sizeofSlot * i))

def modifySlot (i : ℕ) (f : Slot → Slot) : M Unit := do
  let sl ← readSlot env i
  modify fun s => s.putSlot i (f sl)

/-- `DUMA_GET_SEMAPHORE`, after `IF__DUMA_INIT_DONE`. -/
def getSemaphore : M Unit := do
  let s ← get
  if env.explicitInit ∧ ¬ s.initDone then pure ()
  else modifyBook fun b => { b with semDepth := b.semDepth + 1 }

/-- `DUMA_RELEASE_SEMAPHORE`, after `IF__DUMA_INIT_DONE`. -/
def releaseSemaphore : M Unit := do
  let s ← get
  if env.explicitInit ∧ ¬ s.initDone then pure ()
  else if s.book.semDepth = 0 then abort .semaphoreNotLocked
  else modifyBook fun b => { b with semDepth := b.semDepth - 1 }

end Duma

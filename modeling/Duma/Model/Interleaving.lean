import Duma.Model.State
import Mathlib.Computability.Language
import Mathlib.Logic.Function.Basic

/-! # Threads in the slot list

The shared accesses of the public entry points, one a step: the recursive lock, the variables
`allocList`, `allocListSize` and `slotCount`, the permissions of the list's pages and the slots.
A call is a word of such steps. What a call does with the slots that it reads decides which word of
its language it runs; the other pages, which no list shares, are left out.
-/

namespace Duma.Interleaving

open Computability

/-- A local pointer into the slot list, named by the function that fetches it. -/
inductive Ptr
  | allSlacks
  | reduce
  | allocate
  | lookup
  | copy
  | frame
  deriving DecidableEq, Repr

inductive Step
  /-- `DUMA_GET_SEMAPHORE()` -/
  | get
  /-- `DUMA_RELEASE_SEMAPHORE(0)` -/
  | release
  /-- `0 == _duma_g.allocList` -/
  | testList
  /-- the argument `_duma_g.allocList` of `Page_AllowAccess` or `Page_DenyAccess` -/
  | argList
  /-- the argument `_duma_s.allocListSize` -/
  | argSize
  /-- `mprotect` in one of the two -/
  | protect (p : Page)
  /-- `slot = _duma_g.allocList` -/
  | fetchSlot (v : Ptr)
  /-- `count = _duma_s.slotCount` -/
  | fetchCount (v : Ptr)
  /-- a read or a write of the slot with this index -/
  | access (v : Ptr) (i : ℕ)
  /-- `newSize = _duma_s.allocListSize + DUMA_PAGE_SIZE` -/
  | newSize
  /-- `oldAllocation = _duma_g.allocList` -/
  | oldAllocation
  /-- the block for the new list is laid out, with its live pages accessible -/
  | newAllocation
  /-- `_duma_g.allocList = newAllocation` -/
  | setList
  /-- `_duma_s.allocListSize = newSize` -/
  | setSize
  /-- `_duma_s.slotCount += _duma_s.slotsPerPage` -/
  | addSlots
  /-- `Page_Delete` of the old list: `munmap`, or `mprotect` when that is refused -/
  | deleteOld (p : Page)
  deriving DecidableEq

def word (w : List Step) : Language Step := {w}

def accesses (v : Ptr) : Language Step := {w | ∀ a ∈ w, ∃ i, a = .access v i}

/-- `slot = allocList, count = slotCount`, and a loop over the slots. -/
def loop (v : Ptr) : Language Step := word [.fetchSlot v, .fetchCount v] * accesses v

/-- What opens the list: `Page_AllowAccess(_duma_g.allocList, _duma_s.allocListSize)`. -/
def allow : Language Step := word [.argList, .argSize, .protect .readWrite]

def deny : Language Step := word [.argList, .argSize, .protect .noAccess]

def open' : Language Step := word [.get] * allow

def close : Language Step := deny * word [.release]

def checkAllSlacks : Language Step := 1 + loop .allSlacks

/-- The second loop is not reached when the first frees enough. -/
def reduceProtectedMemory : Language Step := loop .reduce * (1 + loop .reduce)

/-- The search and what follows it: evictions, the split, the layout, the record. -/
def search : Language Step := loop .allocate * (accesses .allocate + reduceProtectedMemory)∗

/-- A failing lookup looks for the nearest slot before it aborts. -/
def slotForUserAddress : Language Step := loop .lookup * (1 + loop .lookup)

/-- `_duma_deallocate` with the list open; `delete` is `Page_Delete` of the slot's region. -/
def deallocate (delete : Language Step) : Language Step :=
  checkAllSlacks * slotForUserAddress * (accesses .lookup + reduceProtectedMemory)∗ * delete *
    accesses .lookup

/-- `allocateMoreSlots`: the inner allocation can fail. -/
def allocateMoreSlots : Language Step :=
  word [.newSize, .oldAllocation] * (checkAllSlacks * search) *
    (1 + word [.newAllocation] * accesses .allocate * loop .copy *
      word [.setList, .setSize, .addSlots] * word [.testList] *
      deallocate (word [.deleteOld .unmapped] + word [.deleteOld .noAccess]))

/-- `_duma_allocate` with the list open. -/
def allocate : Language Step := checkAllSlacks * (1 + allocateMoreSlots) * search

inductive Entry
  | malloc
  | free
  | realloc
  | check
  | checkAll
  | mallocUsableSize
  | delFrame
  deriving DecidableEq, Repr

def Entry.words : Entry → Language Step
  -- a request for 0 bytes can return early
  | .malloc => word [.testList] * (1 + open' * allocate * close)
  | .free => word [.testList] * (1 + open' * deallocate 1 * close)
  | .realloc =>
    word [.testList] * open' *
      ((1 + allocate * (1 + loop .lookup)) * (1 + word [.testList] * (1 + deallocate 1))) * close
  | .check => 1 + open' * slotForUserAddress * close
  | .checkAll => open' * loop .allSlacks * close
  -- without the lock
  | .mallocUsableSize => 1 + word [.testList] * allow * loop .lookup * deny
  -- the list is fetched before the lock is taken
  | .delFrame => word [.fetchSlot .frame, .fetchCount .frame] * open' * accesses .frame * close

/-- The local variables of a thread. A list is named by the block of memory that holds it. -/
structure Locals where
  slot : Ptr → ℕ
  count : Ptr → ℕ
  argList : ℕ
  argSize : ℕ
  newSize : ℕ
  oldAllocation : ℕ
  newAllocation : ℕ

def Locals.initial : Locals where
  slot _ := 0
  count _ := 0
  argList := 0
  argSize := 0
  newSize := 0
  oldAllocation := 0
  newAllocation := 0

/-- A thread: the steps of its present call that it has made, and those it still has to make. -/
structure Thread where
  done : List Step
  todo : List Step
  locals : Locals

/-- The shared variables. Sizes are in pages. -/
structure Shared (ι : Type) where
  /-- the thread that has the lock, and how often -/
  lock : Option (ι × ℕ)
  allocList : ℕ
  allocListSize : ℕ
  slotCount : ℕ
  slotsPerPage : ℕ
  /-- the pages of each block -/
  pages : ℕ → ℕ → Page
  /-- the number of blocks that have been laid out -/
  blocks : ℕ

def block (live : ℕ) (p : Page) : ℕ → Page := fun j =>
  if j < live then p else if j = live then .noAccess else .unmapped

def Shared.initial (ι : Type) (size slotsPerPage : ℕ) : Shared ι where
  lock := none
  allocList := 0
  allocListSize := size
  slotCount := size * slotsPerPage
  slotsPerPage := slotsPerPage
  pages := Function.update (fun _ _ => .unmapped) 0 (block size .noAccess)
  blocks := 1

variable {ι : Type} [DecidableEq ι]

/-- One step of the thread `t`, unless it has to wait, stops, or the loop has come to its end. -/
def Step.exec (t : ι) (s : Shared ι) (l : Locals) : Step → Option (Shared ι × Locals)
  | .get =>
    match s.lock with
    | none => some ({ s with lock := some (t, 1) }, l)
    | some (o, d) => if o = t then some ({ s with lock := some (t, d + 1) }, l) else none
  | .release =>
    match s.lock with
    | some (o, d + 1) =>
      if o = t then some ({ s with lock := if d = 0 then none else some (t, d) }, l) else none
    | _ => none
  | .testList => some (s, l)
  | .argList => some (s, { l with argList := s.allocList })
  | .argSize => some (s, { l with argSize := s.allocListSize })
  | .protect p =>
    if ∀ j < l.argSize, s.pages l.argList j ≠ .unmapped then
      some ({ s with pages := Function.update s.pages l.argList fun j =>
        if j < l.argSize then p else s.pages l.argList j }, l)
    else none
  | .fetchSlot v => some (s, { l with slot := Function.update l.slot v s.allocList })
  | .fetchCount v => some (s, { l with count := Function.update l.count v s.slotCount })
  | .access v i => if i < l.count v then some (s, l) else none
  | .newSize => some (s, { l with newSize := s.allocListSize + 1 })
  | .oldAllocation => some (s, { l with oldAllocation := s.allocList })
  | .newAllocation =>
    some ({ s with
      pages := Function.update s.pages s.blocks (block l.newSize .readWrite)
      blocks := s.blocks + 1 }, { l with newAllocation := s.blocks })
  | .setList => some ({ s with allocList := l.newAllocation }, l)
  | .setSize => some ({ s with allocListSize := l.newSize }, l)
  | .addSlots => some ({ s with slotCount := s.slotCount + s.slotsPerPage }, l)
  | .deleteOld p =>
    some ({ s with pages := Function.update s.pages l.oldAllocation fun j =>
      match s.pages l.oldAllocation j with
      | .unmapped => .unmapped
      | _ => p }, l)

structure State (ι : Type) where
  shared : Shared ι
  threads : ι → Thread

def State.initial (ι : Type) (size slotsPerPage : ℕ) : State ι :=
  ⟨Shared.initial ι size slotsPerPage, fun _ => ⟨[], [], Locals.initial⟩⟩

/-- A thread starts a call, or goes on in the one it is in when `C` lets it. -/
inductive State.Next (C : State ι → ι → Step → Prop) (s : State ι) : State ι → Prop
  | call {t : ι} {e : Entry} {w : List Step} (hw : w ∈ e.words) (hidle : (s.threads t).todo = []) :
    s.Next C { s with
      threads := Function.update s.threads t ⟨[], w, (s.threads t).locals⟩ }
  | go {t : ι} {a : Step} {w : List Step} {g : Shared ι} {l : Locals}
    (htodo : (s.threads t).todo = a :: w) (hC : C s t a)
    (h : a.exec t s.shared (s.threads t).locals = some (g, l)) :
    s.Next C ⟨g, Function.update s.threads t ⟨(s.threads t).done ++ [a], w, l⟩⟩

/-- The states of all interleavings whose steps meet `C`. -/
inductive Reach (C : State ι → ι → Step → Prop) (size slotsPerPage : ℕ) : State ι → Prop
  | initial : Reach C size slotsPerPage (State.initial ι size slotsPerPage)
  | next {s s' : State ι} (hs : Reach C size slotsPerPage s) (h : s.Next C s') :
    Reach C size slotsPerPage s'

/-- The slot that a thread is about to access is one of the current list, whose pages are mapped
and accessible. -/
def Shared.Hits (s : Shared ι) (l : Locals) (v : Ptr) (i : ℕ) : Prop :=
  l.slot v = s.allocList ∧ i < s.slotCount ∧
    ∀ j < s.allocListSize, s.pages s.allocList j = .readWrite

end Duma.Interleaving

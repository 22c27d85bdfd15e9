import Mathlib.Data.Int.Notation
import Mathlib.Data.Nat.Notation

/-! # Slots of the allocation list

The records that describe one region of memory each, with the states a region goes through and
the table of allocation functions that decides which deallocator fits which allocator.
-/

namespace Duma

inductive SlotState
  /-- slot not in use -/
  | empty
  /-- internal memory reserved, unused by user -/
  | free
  /-- memory in use by allocator -/
  | inUse
  /-- memory no more used by allocator; not deallocated but protected -/
  | allProtected
  /-- most memory deallocated, but not the page covering `userAddress` -/
  | beginProtected
  deriving DecidableEq, Repr

inductive FileSource
  | empty
  | allocation
  | deallocation
  deriving DecidableEq, Repr

inductive Allocator
  | intAlloc
  | intDealloc
  | malloc
  | calloc
  | free
  | memalign
  | posixMemalign
  | realloc
  | valloc
  | strdup
  | newElem
  | delElem
  | newArray
  | delArray
  | memberNewElem
  | memberDelElem
  | memberNewArray
  | memberDelArray
  deriving DecidableEq, Repr

inductive AllocType
  | internal
  | malloc
  | newElem
  | newArray
  | memberNewElem
  | memberNewArray
  deriving DecidableEq, Repr

inductive AllocStd
  | c
  | cpp
  deriving DecidableEq, Repr

structure AllocDesc where
  name : String
  type : AllocType
  std : AllocStd
  deriving DecidableEq, Repr

/-- The table `_duma_allocDesc`. -/
def allocDesc : Allocator → AllocDesc
  | .intAlloc => ⟨"duma allocate()", .internal, .c⟩
  | .intDealloc => ⟨"duma deallocate()", .internal, .c⟩
  | .malloc => ⟨"malloc()", .malloc, .c⟩
  | .calloc => ⟨"calloc()", .malloc, .c⟩
  | .free => ⟨"free()", .malloc, .c⟩
  | .memalign => ⟨"memalign()", .malloc, .c⟩
  | .posixMemalign => ⟨"posix_memalign()", .malloc, .c⟩
  | .realloc => ⟨"realloc()", .malloc, .c⟩
  | .valloc => ⟨"valloc()", .malloc, .c⟩
  | .strdup => ⟨"strdup()", .malloc, .c⟩
  | .newElem => ⟨"scalar new", .newElem, .cpp⟩
  | .delElem => ⟨"scalar delete", .newElem, .cpp⟩
  | .newArray => ⟨"vector new[]", .newArray, .cpp⟩
  | .delArray => ⟨"vector delete[]", .newArray, .cpp⟩
  | .memberNewElem => ⟨"member scalar new", .memberNewElem, .cpp⟩
  | .memberDelElem => ⟨"member scalar delete", .memberNewElem, .cpp⟩
  | .memberNewArray => ⟨"member vector new[]", .memberNewArray, .cpp⟩
  | .memberDelArray => ⟨"member vector delete[]", .memberNewArray, .cpp⟩

def Allocator.type (a : Allocator) : AllocType := (allocDesc a).type

inductive FailReturn
  | failNull
  | failEnv
  deriving DecidableEq, Repr

/-- A source position passed along as `filename, lineno`. -/
structure Site where
  filename : Option String
  lineno : ℤ
  deriving DecidableEq, Repr

/-- All of the information about a malloc buffer except for the contents of its memory. -/
structure Slot where
  internalAddress : ℕ
  userAddress : ℕ
  protAddress : ℕ
  internalSize : ℕ
  userSize : ℕ
  state : SlotState
  allocator : Allocator
  fileSource : FileSource
  filename : Option String
  lineno : ℤ
  /-- only kept by builds with `DUMA_EXPLICIT_INIT` -/
  slackfill : UInt8
  deriving DecidableEq, Repr

def Slot.zero : Slot where
  internalAddress := 0
  userAddress := 0
  protAddress := 0
  internalSize := 0
  userSize := 0
  state := .empty
  allocator := .intAlloc
  fileSource := .empty
  filename := none
  lineno := 0
  slackfill := 0

/-- The assignments that empty a slot whose memory has been deleted. -/
def Slot.emptied (sl : Slot) : Slot :=
  { sl with
    internalAddress := 0, userAddress := 0, internalSize := 0, userSize := 0,
    state := .empty, allocator := .intAlloc, fileSource := .empty, filename := none, lineno := 0 }

/-- `sizeof(struct _DUMA_Slot)` with leak detection on a 64-bit target. -/
def sizeofSlot : ℕ := 64

end Duma

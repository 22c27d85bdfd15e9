import Duma.Model.Init

/-! # Public functions

The replacements of the allocation functions of C and C++, and the functions that check blocks
or ask for their size.
-/

namespace Duma

variable (env : Env)

def initOnDemand (settings : Settings) : M Unit := do
  if (← get).allocList = 0 then boot env settings

def Tls.callocRequest (tls : Tls) (nelem elsize : ℕ) (site : Site) : Request :=
  { tls.mallocRequest (Word.mul nelem elsize) site with fillByte := 0, allocator := .calloc }

def Tls.memalignRequest (tls : Tls) (alignment size : ℕ) (site : Site) : Request :=
  { tls.mallocRequest size site with alignment := alignment, allocator := .memalign }

def Tls.posixMemalignRequest (tls : Tls) (alignment size : ℕ) (site : Site) : Request :=
  { tls.mallocRequest size site with alignment := alignment, allocator := .posixMemalign }

def Tls.vallocRequest (tls : Tls) (size : ℕ) (site : Site) : Request :=
  { tls.mallocRequest size site with alignment := env.pageSize, allocator := .valloc }

/-- The request of a `realloc` of nothing. -/
def Tls.reallocNewRequest (tls : Tls) (newSize : ℕ) (site : Site) : Request :=
  { tls.mallocRequest newSize site with protectAllocList := false, allocator := .realloc }

def Tls.reallocRequest (tls : Tls) (newSize : ℕ) (site : Site) : Request :=
  { tls.reallocNewRequest newSize site with fillByte := -1 }

def Tls.newRequest (tls : Tls) (userSize : ℕ) (allocator : Allocator) (site : Site) : Request :=
  { tls.mallocRequest userSize site with allocator := allocator, fail := .failNull }

variable (settings : Settings)

def malloc (size : ℕ) (site : Site) : M ℕ := do
  initOnDemand env settings
  allocate env ((← get).tls.mallocRequest size site)

def calloc (nelem elsize : ℕ) (site : Site) : M ℕ := do
  initOnDemand env settings
  allocate env ((← get).tls.callocRequest nelem elsize site)

def free (baseAdr : ℕ) (site : Site) : M Unit := do
  initOnDemand env settings
  deallocate env baseAdr true .free site

def memalign (alignment size : ℕ) (site : Site) : M ℕ := do
  initOnDemand env settings
  allocate env ((← get).tls.memalignRequest alignment size site)

/-- What `posix_memalign` returns, and the pointer it stores. -/
inductive MemalignResult
  | einval
  | enomem
  | ok (ptr : ℕ)
  deriving DecidableEq, Repr

def posixMemalign (alignment size : ℕ) (site : Site) : M MemalignResult := do
  if alignment &&& Word.sub alignment 1 ≠ 0 ∨ alignment < 8 then pure .einval
  else
    initOnDemand env settings
    let retptr ← allocate env ((← get).tls.posixMemalignRequest alignment size site)
    if retptr ≠ 0 then pure (.ok retptr) else pure .enomem

def valloc (size : ℕ) (site : Site) : M ℕ := do
  initOnDemand env settings
  allocate env ((← get).tls.vallocRequest env size site)

def memcpy (dest src size : ℕ) : M Unit := do
  memcpyAccess env dest src size
  copyBytes env dest src size

section Realloc

variable (len : ℕ → ℕ)

/-- Allocate a new block and move the contents of the old one. -/
def reallocCopyBy (oldBuffer newSize : ℕ) (site : Site) : M ℕ := do
  let ptr ← allocateBy env len ((← get).tls.reallocRequest newSize site)
  if ptr = 0 then pure 0
  else
    match ← slotForUserAddress env oldBuffer with
    | none => abort (.reallocUnknown oldBuffer newSize)
    | some (_, sl) =>
      if sl.userSize < newSize then
        memcpy env ptr oldBuffer sl.userSize
        storeRange env (ptr + sl.userSize) (ptr + newSize) fun _ => 0
      else memcpy env ptr oldBuffer newSize
      deallocate env oldBuffer false .realloc site
      pure ptr

/-- `_duma_realloc`, with the lengths that `mmap` gets. -/
def reallocBy (oldBuffer newSize : ℕ) (site : Site) : M ℕ := do
  initOnDemand env settings
  openAllocList env
  let ptr ←
    if oldBuffer = 0 then allocateBy env len ((← get).tls.reallocNewRequest newSize site)
    else if newSize = 0 then do
      deallocate env oldBuffer false .realloc site
      pure 0
    else reallocCopyBy env len oldBuffer newSize site
  closeAllocList env
  pure ptr

end Realloc

/-- `_duma_realloc` on a target with an `int` of 32 bits. -/
abbrev reallocInt := reallocBy env settings intSize

abbrev reallocCopy := reallocCopyBy env id

abbrev realloc := reallocBy env settings id

def strdup (str : ℕ) (site : Site) : M ℕ := do
  initOnDemand env settings
  dupString env str site

/-- One round of `duma_new_operator`. -/
def newOperator (userSize : ℕ) (allocator : Allocator) (site : Site) : M ℕ := do
  initOnDemand env settings
  allocate env ((← get).tls.newRequest userSize allocator site)

def deleteOperator (ptr : ℕ) (allocator : Allocator) (site : Site) : M Unit :=
  deallocate env ptr true allocator site

/-- The slot that may be checked, or a report of what is wrong with the address. -/
def slotToCheck (address : ℕ) : M Slot := do
  match ← slotForUserAddress env address with
  | none =>
    let nearest ← nearestSlotForUserAddress env address
    abort (.checkUnknown address (nearest.map (·.2)))
  | some (_, sl) =>
    if sl.state = .allProtected ∨ sl.state = .beginProtected then abort (.checkFreed address sl)
    else pure sl

def check (address : ℕ) : M Unit := do
  if address = 0 then pure ()
  else
    openAllocList env
    checkSlack env (← slotToCheck env address)
    closeAllocList env

def checkAll : M Unit := do
  openAllocList env
  checkAllSlacks env
  closeAllocList env

def mallocUsableSize (ptr : ℕ) : M ℕ := do
  let s ← get
  if ptr = 0 ∨ ptr = s.nullAddr env then pure 0
  else
    if s.allocList = 0 then abort .usableSizeBeforeMalloc
    pageAllowAccess env s.allocList s.allocListSize
    match ← slotForUserAddress env ptr with
    | none => abort (.usableSizeUnknown ptr)
    | some (_, sl) =>
      pageDenyAccess env s.allocList s.allocListSize
      pure sl.userSize

structure LeakLine where
  ptr : ℕ
  size : ℕ
  type : String
  filename : Option String
  lineno : ℤ
  deriving DecidableEq, Repr

/-- The lines printed and the counters of `DUMA_delFrame`. -/
structure LeakReport where
  lines : List LeakLine
  nonFreedReported : ℕ
  nonFreedTotal : ℕ
  deriving DecidableEq, Repr

def Slot.leakLine (sl : Slot) : LeakLine where
  ptr := sl.userAddress
  size := sl.userSize
  type := (allocDesc sl.allocator).name
  filename := sl.filename
  lineno := sl.lineno

def Slot.leaks (sl : Slot) : Bool :=
  sl.state == .inUse && sl.allocator != .intAlloc && (!env.explicitInit || sl.lineno != -1)

def Slot.reported (sl : Slot) (reportAllLeaks : Bool) : Bool := reportAllLeaks || 0 < sl.lineno

def reportLeaks (reportAllLeaks : Bool) : List Slot → LeakReport → LeakReport
  | [], rep => rep
  | sl :: rest, rep =>
    if sl.leaks env then
      let rep :=
        if sl.reported reportAllLeaks then
          { rep with
            lines := rep.lines ++ [sl.leakLine], nonFreedReported := rep.nonFreedReported + 1 }
        else rep
      reportLeaks reportAllLeaks rest { rep with nonFreedTotal := rep.nonFreedTotal + 1 }
    else reportLeaks reportAllLeaks rest rep

def delFrame : M LeakReport := do
  openAllocList env
  let rep := reportLeaks env (← get).cfg.reportAllLeaks (← readSlots env) ⟨[], 0, 0⟩
  closeAllocList env
  pure rep

end Duma

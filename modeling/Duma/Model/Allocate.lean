import Duma.Model.Helpers

/-! # Allocation

`_duma_allocate` looks for the best fitting free slot, maps a new chunk when there is none,
splits off what is too much and lays the block out next to its dead page. When the slots run
low it first allocates a longer slot list from itself.
-/

namespace Duma

variable (env : Env)

/-- The arguments of `_duma_allocate`. -/
structure Request where
  alignment : ℕ
  userSize : ℕ
  protectBelow : Bool
  fillByte : ℤ
  protectAllocList : Bool
  allocator : Allocator
  fail : FailReturn
  site : Site
  deriving DecidableEq, Repr

def memoryCreationSize : ℕ := 1024 * 1024

def sizeMax : ℕ := 2 ^ 64 - 1

/-- What an allocation of 0 bytes by this function does. -/
def Config.strategy (cfg : Config) (allocator : Allocator) : ℕ :=
  match (allocDesc allocator).std with
  | .c => cfg.malloc0Strategy
  | .cpp => cfg.new0Strategy

/-- The alignment in use: a zero stands for the default one, or for the next lower power of two
of a smaller size. -/
def resolveAlignment (tls : Tls) (alignment userSize : ℕ) : ℕ :=
  if alignment = 0 then
    let a := Word.ofInt tls.alignment
    if userSize < a then Word.leadingBit 64 userSize else a
  else alignment

/-- `(int)alignment == ((int)alignment & -(int)alignment)` -/
def alignmentPasses (alignment : ℕ) : Bool :=
  BitVec.ofNat 32 alignment == (BitVec.ofNat 32 alignment &&& -BitVec.ofNat 32 alignment)

/-- The size rounded up to the next alignment and page-size boundary, and another page for the
dead page. -/
def internalSizeFor (alignment userSize : ℕ) : ℕ :=
  let pages := Word.add
    (Word.clearLow (Word.sub (Word.add userSize env.pageSize) 1) env.pageSize) env.pageSize
  if env.pageSize < alignment then Word.add pages (Word.sub alignment env.pageSize) else pages

structure Found where
  fullSlot : Option (ℕ × Slot)
  emptySlot0 : Option ℕ
  emptySlot1 : Option ℕ
  deriving DecidableEq, Repr

def Found.none : Found := ⟨.none, .none, .none⟩

def Found.addEmpty (f : Found) (i : ℕ) : Found :=
  match f.emptySlot0, f.emptySlot1 with
  | .none, _ => { f with emptySlot0 := some i }
  | some _, .none => { f with emptySlot1 := some i }
  | some _, some _ => f

def Found.improves (f : Found) (sl : Slot) : Bool :=
  match f.fullSlot with
  | .none => true
  | some (_, best) => sl.internalSize < best.internalSize

def searchSlots (internalSize : ℕ) : List Slot → ℕ → Found → Found
  | [], _, f => f
  | sl :: rest, i, f =>
    if sl.state = .free ∧ internalSize ≤ sl.internalSize then
      if f.improves sl then
        let f := { f with fullSlot := some (i, sl) }
        if sl.internalSize = internalSize then f
        else searchSlots internalSize rest (i + 1) f
      else searchSlots internalSize rest (i + 1) f
    else if sl.state = .empty then searchSlots internalSize rest (i + 1) (f.addEmpty i)
    else searchSlots internalSize rest (i + 1) f

def chunkSizeFor (internalSize : ℕ) : ℕ :=
  Word.clearLow
    (Word.sub (Word.add (max memoryCreationSize internalSize) env.pageSize) 1) env.pageSize

/-- `userSize > (SIZE_MAX) - (chunkSize - 1)` -/
def chunksOverflow (chunkSize userSize : ℕ) : Bool :=
  Word.sub sizeMax (Word.sub chunkSize 1) < userSize

def numChunksFor (chunkSize userSize : ℕ) : ℕ :=
  if chunksOverflow chunkSize userSize then sizeMax
  else if userSize = 0 then 1 else Word.add userSize (Word.sub chunkSize 1) / chunkSize

section Create

variable (len : ℕ → ℕ)

/-- The loop that reduces protected memory and tries to create the chunk again. -/
def retryCreateBy (reductionSizekB size : ℕ) : ℕ → M ℕ
  | 0 => throw .outOfFuel
  | fuel + 1 => do
    let reduceMore ← reduceProtectedMemory env reductionSizekB
    let address ← pageCreateBy env len size false
    if reduceMore && address == 0 then retryCreateBy reductionSizekB size fuel else pure address

/-- Get the pages for a new chunk, giving up protected memory for them where that helps. -/
def createChunkBy (chunkSize : ℕ) (r : Request) : M ℕ := do
  let numChunks := numChunksFor chunkSize r.userSize
  let address ←
    if chunksOverflow chunkSize r.userSize then pure 0
    else pageCreateBy env len (Word.mul chunkSize numChunks) false
  let s ← get
  if address = 0 ∧ s.cfg.protectFree ≠ 0 then
    let address ←
      retryCreateBy env len (kB chunkSize) (Word.mul chunkSize numChunks) (2 * s.slots.length + 1)
    if address = 0 ∧ r.fail = .failEnv then
      pageCreateBy env len (Word.mul chunkSize numChunks) s.cfg.mallocFailexit
    else pure address
  else pure address

/-- Create more memory and mark it all as free; the slot for it and the other empty slot. -/
def createMoreBy (internalSize : ℕ) (r : Request) (emptySlot0 emptySlot1 : Option ℕ) :
    M (ℕ × Option ℕ) := do
  let chunkSize := chunkSizeFor env internalSize
  match emptySlot0, emptySlot1 with
  | none, _ => abort (.noEmptySlot 0)
  | some _, none => abort (.noEmptySlot 1)
  | some fullSlot, some emptySlot =>
    let s ← get
    if 0 < s.cfg.maxAlloc ∧ s.cfg.maxAlloc < s.book.sumAllocatedMem + kB chunkSize then
      let _ ← reduceProtectedMemory env (kB chunkSize)
    let address ← createChunkBy env len chunkSize r
    modifySlot env fullSlot fun sl => { sl with internalAddress := address }
    if address ≠ 0 then
      let numChunks := numChunksFor chunkSize r.userSize
      modifyBook fun b =>
        { b with
          sumAllocatedMem := b.sumAllocatedMem + Word.mul (kB chunkSize) numChunks
          sumTotalAllocatedMem := b.sumTotalAllocatedMem + Word.mul (kB chunkSize) numChunks
          unUsedSlots := Word.sub b.unUsedSlots 1 }
      modifySlot env fullSlot fun sl =>
        { sl with internalSize := Word.mul chunkSize numChunks, state := .free }
    pure (fullSlot, some emptySlot)

end Create

def Slot.surplus (sl : Slot) (internalSize : ℕ) : Slot :=
  let address := Word.add sl.internalAddress internalSize
  let size := Word.sub sl.internalSize internalSize
  { sl with
    internalAddress := address, internalSize := size, userAddress := address, userSize := size }

def splitSlot (fullSlot : ℕ) (emptySlot : Option ℕ) (internalSize : ℕ) : M Unit := do
  let sl ← readSlot env fullSlot
  if internalSize < sl.internalSize then
    match emptySlot with
    | none => throw .nullSlot
    | some i =>
      modifySlot env i fun _ => sl.surplus internalSize
      modifySlot env fullSlot fun sl => { sl with internalSize := internalSize }
      modifyBook fun b => { b with unUsedSlots := Word.sub b.unUsedSlots 1 }

/-- Where a block lies in its region: the user address and the start of the dead pages. -/
structure Layout where
  userAddr : ℕ
  protAddr : ℕ
  deriving DecidableEq, Repr

/-- The mid of a protected page. -/
def layoutZero (intAddr : ℕ) : Layout where
  userAddr := Word.add intAddr (env.pageSize / 2)
  protAddr := intAddr

def layoutAbove (intAddr internalSize alignment userSize : ℕ) : Layout :=
  let userAddr := Word.clearLow
    (Word.sub (Word.sub (Word.add intAddr internalSize) env.pageSize) userSize) alignment
  { userAddr
    protAddr := Word.clearLow
      (Word.sub (Word.add (Word.add userAddr userSize) env.pageSize) 1) env.pageSize }

def layoutBelow (intAddr alignment : ℕ) : Layout :=
  let userAddr :=
    Word.clearLow (Word.sub (Word.add (Word.add intAddr env.pageSize) alignment) 1) alignment
  { userAddr, protAddr := Word.sub (Word.clearLow userAddr env.pageSize) env.pageSize }

/-- Lay out the block in its region and set up the live and the dead pages. -/
def placeBlock (intAddr internalSize alignment : ℕ) (r : Request) : M Layout := do
  let endAddr := Word.add intAddr internalSize
  if r.userSize = 0 then
    let l := layoutZero env intAddr
    pageDenyAccess env l.protAddr (Word.sub endAddr l.protAddr)
    pure l
  else if r.protectBelow = false then
    let l := layoutAbove env intAddr internalSize alignment r.userSize
    pageAllowAccess env intAddr (Word.sub l.protAddr intAddr)
    pageDenyAccess env l.protAddr (Word.sub endAddr l.protAddr)
    pure l
  else
    let l := layoutBelow env intAddr alignment
    pageAllowAccess env l.userAddr (Word.sub internalSize (Word.sub l.userAddr l.protAddr))
    pageDenyAccess env intAddr (Word.sub l.userAddr intAddr)
    pure l

/-- The line that a slot records; builds with `DUMA_EXPLICIT_INIT` mark early allocations. -/
def State.recordedLine (s : State) (site : Site) : ℤ :=
  if env.explicitInit ∧ ¬ s.initDone then -1 else site.lineno

def Slot.taken (sl : Slot) (l : Layout) (r : Request) (lineno : ℤ) : Slot :=
  { sl with
    userAddress := l.userAddr, protAddress := l.protAddr, userSize := r.userSize
    state := .inUse, allocator := r.allocator, fileSource := .allocation
    filename := r.site.filename, lineno := lineno }

def takeSlot (fullSlot internalSize alignment : ℕ) (r : Request) : M ℕ := do
  let sl ← readSlot env fullSlot
  let l ← placeBlock env sl.internalAddress internalSize alignment r
  let lineno := (← get).recordedLine env r.site
  modifySlot env fullSlot fun sl => sl.taken l r lineno
  initSlack env fullSlot
  pure l.userAddr

def openAllocList : M Unit := do
  getSemaphore env
  let s ← get
  pageAllowAccess env s.allocList s.allocListSize

def closeAllocList : M Unit := do
  let s ← get
  pageDenyAccess env s.allocList s.allocListSize
  releaseSemaphore env

/-- What `_duma_allocate` does before it searches the slots. -/
def allocateProlog (grow : M Unit) (r : Request) : M Unit := do
  if r.protectAllocList then openAllocList env
  checkByFreq env
  let s ← get
  if r.allocator.type ≠ .internal ∧ s.book.unUsedSlots < 7 then grow

def allocateEpilog (userAddr : ℕ) (r : Request) : M ℕ := do
  if r.protectAllocList then closeAllocList env
  if userAddr ≠ 0 ∧ r.fillByte ≠ -1 ∧ r.userSize ≠ 0 then
    storeRange env userAddr (userAddr + r.userSize) fun _ => UInt8.ofInt r.fillByte
  pure userAddr

section Serve

variable (len : ℕ → ℕ)

/-- Search the slots, create or split memory as needed and hand out the result. -/
def allocateFromSlotsBy (internalSize alignment : ℕ) (r : Request) : M ℕ := do
  let found := searchSlots internalSize (← readSlots env) 0 Found.none
  let (fullSlot, emptySlot) ←
    match found.fullSlot with
    | some (i, _) => pure (i, found.emptySlot0)
    | none => createMoreBy env len internalSize r found.emptySlot0 found.emptySlot1
  let sl ← readSlot env fullSlot
  if sl.internalSize ≠ 0 then
    splitSlot env fullSlot emptySlot internalSize
    takeSlot env fullSlot internalSize alignment r
  else pure 0

def allocateServeBy (grow : M Unit) (internalSize alignment : ℕ) (r : Request) : M ℕ := do
  allocateProlog env grow r
  let userAddr ← allocateFromSlotsBy env len internalSize alignment r
  allocateEpilog env userAddr r

/-- `_duma_allocate`, with `grow` for the call of `allocateMoreSlots`. -/
def allocateWithBy (grow : M Unit) (r : Request) : M ℕ := do
  let s ← get
  if s.allocList = 0 then throw .assertion
  modifyBook fun b => { b with numAllocs := b.numAllocs + 1 }
  if r.userSize = 0 then
    match s.cfg.strategy r.allocator with
    | 0 => abort (.malloc0 r.site)
    | 1 => pure 0
    | 3 => allocateServeBy env len grow env.pageSize r.alignment r
    | _ => pure (s.nullAddr env)
  else
    let alignment := resolveAlignment s.tls r.alignment r.userSize
    if alignmentPasses alignment then
      allocateServeBy env len grow (internalSizeFor env alignment r.userSize) alignment r
    else abort (.notPowerOfTwo alignment r.site)

end Serve

/-! The allocation whose chunks are mapped in full. -/

abbrev retryCreate := retryCreateBy env id

abbrev createChunk := createChunkBy env id

abbrev createMore := createMoreBy env id

abbrev allocateFromSlots := allocateFromSlotsBy env id

abbrev allocateServe := allocateServeBy env id

abbrev allocateWith := allocateWithBy env id

end Duma

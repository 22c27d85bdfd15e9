import Duma.Model.Deallocate

/-! # Initialisation

`_duma_init` maps the null block and the first chunk, which holds the slot list and the first
free slot; `duma_init` sets the configuration and checks that `malloc` and `free` are bound.
-/

namespace Duma

variable (env : Env)

/-- What the environment variables and the program choose. -/
structure Settings where
  cfg : Config
  tls : Tls
  /-- the address of the value of `DUMA_OUTPUT_STACKTRACE_MAPFILE` -/
  mapFile : Option ℕ
  /-- the address of the value of `DUMA_OUTPUT_FILE` -/
  outputFile : Option ℕ

def Tls.initial : Tls where
  alignment := env.minAlignment
  protectBelow := false
  fill := 255

/-- The process before its first allocation. -/
def State.pristine : State where
  cfg := Config.initial
  tls := Tls.initial env
  book :=
    { unUsedSlots := 0, sumAllocatedMem := 0, sumTotalAllocatedMem := 0, sumProtectedMem := 0
      numDeallocs := 0, numAllocs := 0, checkFreqCounter := 0, semDepth := 0
      mmapCalls := 0, munmapCalls := 0 }
  initDone := false
  nullBlock := 0
  allocList := 0
  allocListSize := 0
  slots := []
  pages := env.boot
  mem := env.bootMem
  trace := []

def Slot.ofList (address size : ℕ) : Slot :=
  { Slot.zero with
    internalAddress := address, userAddress := address, internalSize := size, userSize := size
    state := .inUse, fileSource := .allocation, filename := some "duma.c", lineno := 1161 }

/-- The record of the rest of the first chunk. -/
def Slot.ofPool (address size : ℕ) : Slot :=
  { Slot.ofList address size with state := .free, lineno := 1173 }

def Env.arenaSize : ℕ :=
  Word.clearLow
    (Word.sub (Word.add (max memoryCreationSize env.pageSize) env.pageSize) 1) env.pageSize

/-- Map the first chunk; the retries go through a list that does not exist yet. -/
def createArena (size : ℕ) : M ℕ := do
  let address ← pageCreate env size false
  let s ← get
  if address = 0 ∧ s.cfg.protectFree ≠ 0 then
    let address ← retryCreate env (kB size) size (2 * s.slots.length + 1)
    if address = 0 then pageCreate env size true else pure address
  else pure address

/-- `_duma_init` up to the call of `duma_init`. -/
def construct : M Unit := do
  let nullBlock ← pageCreate env (2 * env.pageSize) true
  if nullBlock = 0 then abort .nullBlockFailed
  pageDenyAccess env nullBlock (2 * env.pageSize)
  modify fun s =>
    { s with
      nullBlock, allocListSize := env.pageSize
      slots := List.replicate env.slotsPerPage Slot.zero }
  let size := env.arenaSize
  let allocList ← createArena env size
  modify fun s => { s with allocList }
  touch env allocList (allocList + env.pageSize)
  modify fun s => { s with slots := List.replicate env.slotsPerPage Slot.zero }
  modifySlot env 0 fun _ => Slot.ofList allocList env.pageSize
  if env.pageSize < size then
    modifySlot env 1 fun _ =>
      Slot.ofPool (Word.add allocList env.pageSize) (Word.sub size env.pageSize)
  let pool ← readSlot env 1
  pageDenyAccess env pool.internalAddress pool.internalSize
  modifyBook fun b => { b with unUsedSlots := Word.sub env.slotsPerPage 2 }

/-- `DUMA_PARAMS_UK` -/
def Site.unknown : Site := ⟨some "UNKNOWN (use #include duma.h)", 0⟩

def Tls.mallocRequest (tls : Tls) (size : ℕ) (site : Site) : Request where
  alignment := 0
  userSize := size
  protectBelow := tls.protectBelow
  fillByte := tls.fill
  protectAllocList := true
  allocator := .malloc
  fail := .failEnv
  site := site

def Tls.strdupRequest (tls : Tls) (size : ℕ) (site : Site) : Request :=
  { tls.mallocRequest (Word.add size 1) site with fillByte := -1, allocator := .strdup }

/-- Copy `size` bytes; the ranges have been found not to overlap in a harmful way. -/
def copyBytes (dest src size : ℕ) : M Unit := do
  let s ← get
  storeRange env dest (dest + size) fun x => s.mem (src + (x - dest))

/-- The address of the first zero byte, `count` addresses from `x` on being read at most. -/
def strEnd : ℕ → ℕ → M ℕ
  | 0, x => throw (.segv x)
  | count + 1, x => do
    let s ← get
    if s.page env x ≠ .readWrite then throw (.segv x)
    else if s.mem x = 0 then pure x
    else strEnd count (x + 1)

def strlen (str : ℕ) : M ℕ := do
  pure ((← strEnd env (env.taskSize - str) str) - str)

/-- `strdup` behind the initialisation on demand; the counter of its loop has 32 bits. -/
def dupString (str : ℕ) (site : Site) : M ℕ := do
  let size ← strlen env str
  let dup ← allocate env ((← get).tls.strdupRequest size site)
  if dup = 0 then pure 0
  else
    touch env str (str + min (size + 1) (2 ^ 32))
    touch env dup (dup + min (size + 1) (2 ^ 32))
    if 2 ^ 32 ≤ size + 1 then throw .loops
    copyBytes env dup str (size + 1)
    pure dup

/-- The strings that `duma_getenvvars` copies. -/
def Settings.copies (settings : Settings) : List (ℕ × Site) :=
  (settings.mapFile.map fun str => (str, ⟨some "duma.c", 904⟩)).toList ++
    (settings.outputFile.map fun str => (str, ⟨some "duma.c", 940⟩)).toList

def dupStrings : List (ℕ × Site) → M Unit
  | [] => pure ()
  | (str, site) :: rest => do
    let _ ← dupString env str site
    dupStrings rest

/-- `duma_getenvvars`; `DUMA_CHECK_FREQ` is read last. -/
def dumaGetenvvars (settings : Settings) : M Unit := do
  modify fun s =>
    { s with cfg := { settings.cfg with checkFreq := s.cfg.checkFreq }, tls := settings.tls }
  dupStrings env settings.copies
  modify fun s => { s with cfg := settings.cfg }

def dumaInit (settings : Settings) : M Unit := do
  if (← get).initDone then pure ()
  else
    dumaGetenvvars env settings
    let testAlloc ← allocate env (settings.tls.mallocRequest 123 Site.unknown)
    if (← get).book.numAllocs = 0 then abort .notBound
    deallocate env testAlloc true .free Site.unknown
    if (← get).book.numDeallocs = 0 then abort .notBound
    modify fun s => { s with initDone := true }

/-- The process up to the program's first call. -/
def boot (settings : Settings) : M Unit := do
  construct env
  if env.explicitInit then pure () else dumaInit env settings

end Duma

import Duma.Model.Api

/-! # Runs

A run is a sequence of public calls and of writes of the program to its memory. Beside the
state of the allocator it keeps the blocks that the program holds: those it was given and has
not freed.
-/

namespace Duma

inductive Call
  | malloc (size : ℕ) (site : Site)
  | calloc (nelem elsize : ℕ) (site : Site)
  | memalign (alignment size : ℕ) (site : Site)
  | posixMemalign (alignment size : ℕ) (site : Site)
  | valloc (size : ℕ) (site : Site)
  | strdup (str : ℕ) (site : Site)
  | new (size : ℕ) (allocator : Allocator) (site : Site)
  | realloc (oldBuffer newSize : ℕ) (site : Site)
  | free (baseAdr : ℕ) (site : Site)
  | delete (ptr : ℕ) (allocator : Allocator) (site : Site)
  | check (address : ℕ)
  | checkAll
  | mallocUsableSize (ptr : ℕ)
  | delFrame
  /-- the program stores `f x` at every address `x` of `[lo, hi)` -/
  | write (lo hi : ℕ) (f : ℕ → UInt8)
  /-- `DUMA_SET_ALIGNMENT` and its like -/
  | set (tls : Tls)
  /-- `duma_init` -/
  | init (settings : Settings)

variable (env : Env) (settings : Settings)

/-- Run a call; the result is the pointer that the program receives, if any. -/
def Call.exec : Call → M ℕ
  | malloc size site => Duma.malloc env settings size site
  | calloc nelem elsize site => Duma.calloc env settings nelem elsize site
  | memalign alignment size site => Duma.memalign env settings alignment size site
  | posixMemalign alignment size site => do
    match ← Duma.posixMemalign env settings alignment size site with
    | .ok ptr => pure ptr
    | _ => pure 0
  | valloc size site => Duma.valloc env settings size site
  | strdup str site => Duma.strdup env settings str site
  | new size allocator site => Duma.newOperator env settings size allocator site
  | realloc oldBuffer newSize site => Duma.realloc env settings oldBuffer newSize site
  | free baseAdr site => do
    Duma.free env settings baseAdr site
    pure 0
  | delete ptr allocator site => do
    Duma.deleteOperator env ptr allocator site
    pure 0
  | check address => do
    Duma.check env address
    pure 0
  | checkAll => do
    Duma.checkAll env
    pure 0
  | mallocUsableSize ptr => do
    let _ ← Duma.mallocUsableSize env ptr
    pure 0
  | delFrame => do
    let _ ← Duma.delFrame env
    pure 0
  | write lo hi f => do
    storeRange env lo hi f
    pure 0
  | set tls => do
    modify fun s => { s with tls }
    pure 0
  | init settings => do
    dumaInit env settings
    pure 0

structure Block where
  addr : ℕ
  size : ℕ
  allocator : Allocator
  site : Site
  /-- the guard is below the block -/
  below : Bool
  /-- the slack fill value in force when the block was allocated -/
  slackfill : UInt8
  /-- the slot created for the block -/
  slot : ℕ
  /-- the bytes that the program expects, by offset -/
  bytes : ℕ → UInt8

structure World where
  heap : List Block
  st : State

/-- The operators `new` and `delete` name an allocator that is not DUMA itself. -/
def Call.Public : Call → Prop
  | .new _ allocator _ => allocator.type ≠ .internal
  | .delete _ allocator _ => allocator.type ≠ .internal
  | _ => True

/-- The state in which a call does its work: with its settings, if it makes any. -/
def Call.start (s : State) : Call → State
  | .init settings =>
    if s.initDone then s else { s with cfg := settings.cfg, tls := settings.tls }
  | .set tls => { s with tls }
  | _ => s

def Call.request (s : State) : Call → Option Request
  | malloc size site => some (s.tls.mallocRequest size site)
  | calloc nelem elsize site => some (s.tls.callocRequest nelem elsize site)
  | memalign alignment size site => some (s.tls.memalignRequest alignment size site)
  | posixMemalign alignment size site => some (s.tls.posixMemalignRequest alignment size site)
  | valloc size site => some (s.tls.vallocRequest env size site)
  | strdup str site =>
    match strlen env str s with
    | .ok size _ => some (s.tls.strdupRequest size site)
    | .error _ _ => none
  | new size allocator site => some (s.tls.newRequest size allocator site)
  | realloc oldBuffer newSize site =>
    if oldBuffer = 0 then some (s.tls.reallocNewRequest newSize site)
    else if newSize = 0 then none else some (s.tls.reallocRequest newSize site)
  | _ => none

/-- The requests that an initialisation with these settings makes for itself. -/
def Settings.Asks (settings : Settings) (r : Request) : Prop :=
  r = settings.tls.mallocRequest 123 Site.unknown ∨
    ∃ c ∈ settings.copies, ∃ size < env.taskSize, r = settings.tls.strdupRequest size c.2

def Call.Asks (s : State) (c : Call) (r : Request) : Prop :=
  c.request env s = some r ∨ ∃ settings, c = .init settings ∧ s.initDone = false ∧
    settings.Asks env r

def Call.frees (ptr : ℕ) : Call → Option ℕ
  | free baseAdr _ => some baseAdr
  | delete p _ _ => some p
  | realloc oldBuffer newSize _ => if newSize = 0 ∨ ptr ≠ 0 then some oldBuffer else none
  | _ => none

/-- The new block at `ptr`, as the state after the call has it. -/
def State.newBlock (s : State) (r : Request) (ptr : ℕ) : Block where
  addr := ptr
  size := r.userSize
  allocator := r.allocator
  site := r.site
  below := r.protectBelow
  slackfill := s.cfg.slackfill
  slot := s.slots.findIdx (·.userAddress == ptr)
  bytes k := s.mem (ptr + k)

def Block.write (b : Block) (lo hi : ℕ) (f : ℕ → UInt8) : Block :=
  { b with bytes := fun k => if lo ≤ b.addr + k ∧ b.addr + k < hi then f (b.addr + k) else b.bytes k }

/-- The blocks of the program after a call has returned `ptr` in state `s`. A `realloc` whose old
address has been handed out again frees the block that it has got. -/
def World.heapAfter (w : World) (c : Call) (ptr : ℕ) (s : State) : List Block :=
  match c with
  | .write lo hi f => w.heap.map (·.write lo hi f)
  | .init _ => w.heap
  | c =>
    let heap :=
      match c.request env w.st with
      | none => w.heap
      | some r => if ptr = 0 ∨ ptr = s.nullAddr env then w.heap else s.newBlock r ptr :: w.heap
    heap.filter fun b => c.frees ptr != some b.addr

/-- One call of a run. -/
inductive World.Step (w : World) (c : Call) : World → Prop
  | intro {ptr : ℕ} {s : State} (h : c.exec env settings w.st = .ok ptr s) :
    Step w c ⟨w.heapAfter env c ptr s, s⟩

/-- The worlds reached by runs whose calls all satisfy `A`. -/
inductive Reach (A : World → Call → Prop) : World → Prop
  | start {s : State} (h : boot env settings (State.pristine env) = .ok () s) : Reach A ⟨[], s⟩
  | step {w w' : World} {c : Call} (hw : Reach A w) (hA : A w c)
    (h : w.Step env settings c w') : Reach A w'

theorem Reach.mono {A B : World → Call → Prop} {w : World} (hAB : ∀ w c, A w c → B w c)
    (h : Reach env settings A w) : Reach env settings B w := by
  induction h with
  | start h => exact .start h
  | step _ hA h ih => exact .step ih (hAB _ _ hA) h

end Duma

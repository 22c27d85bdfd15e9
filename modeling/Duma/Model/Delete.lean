import Duma.Foundation.Wp
import Duma.Model.Semaphore

/-! # The `delete` macro

A delete expression in the thread-safe build with leak detection is the body of a `for` loop that
locks, pushes its place in the source for `operator delete`, and runs once.
-/

namespace Duma.Delete

def DUMA_MAX_DEL_DEPTH : ℕ := 256

/-- `__FILE__` and `__LINE__` -/
structure Site where
  file : String
  line : ℕ
  deriving DecidableEq, Repr

inductive Deletes
  | none
  /-- the destructor of the object runs delete expressions itself -/
  | object (site : Site) (destructor rest : Deletes)
  /-- a null pointer is deleted -/
  | null (site : Site) (rest : Deletes)
  deriving Repr

inductive Kind
  | get
  | release
  /-- the body of the delete expression at a place starts -/
  | body (site : Site)
  /-- `operator delete` for the delete expression at a place, with what it passes on -/
  | operatorDelete (own : Site) (file : String) (line : ℕ)
  deriving DecidableEq, Repr

/-- What happened, with the number of bodies that were running, the depth of the thread in the lock
and the thread that had locked the mutex, all of them right after it. -/
structure Event where
  kind : Kind
  running : ℕ
  depth : ℕ
  mutex : Option ℕ

/-- The lock, the members of `_duma_g.TLS` for `delete`, and a record. -/
structure World where
  sem : Semaphore.State
  Magic : ℤ
  DelPtr : ℕ
  DelFile : ℕ → String
  DelLine : ℕ → ℕ
  running : ℕ
  log : List Event

inductive Halt
  /-- `DUMA_ASSERT` fails -/
  | assertion
  /-- the lock is not got, or not given back -/
  | lock
  /-- the bound on the rounds of a loop was reached -/
  | outOfFuel
  deriving DecidableEq, Repr

abbrev M := EStateM Halt World

def finishCall (thread : ℕ) : ℕ → Semaphore.State → Option Semaphore.State
  | 0, _ => none
  | n + 1, s =>
    if (s.threads thread).pc = .idle then some s else (s.step thread .go).bind (finishCall thread n)

/-- A call of `DUMA_get_sem` or `DUMA_rel_sem`; none takes more than seven steps. -/
def call (thread : ℕ) (a : Semaphore.Action) (s : Semaphore.State) : Option Semaphore.State :=
  (s.step thread a).bind (finishCall thread 8)

variable (thread : ℕ)

def record (kind : Kind) : M Unit := modify fun w =>
  { w with log := w.log ++ [⟨kind, w.running, (w.sem.threads thread).depth, w.sem.mutex⟩] }

def DUMA_get_sem : M Unit := do
  match call thread .get (← get).sem with
  | none => throw .lock
  | some sem =>
    modify fun w => { w with sem }
    record thread .get

def DUMA_rel_sem (retval : ℤ) : M ℤ := do
  match call thread .rel (← get).sem with
  | none => throw .lock
  | some sem =>
    modify fun w => { w with sem }
    record thread .release
    pure retval

/-- The rounds of the `for` loop. The argument of `DUMA_rel_sem` is read before the call. -/
def rounds (body : M Unit) : ℕ → M Unit
  | 0 => throw .outOfFuel
  | fuel + 1 => do
    if (← DUMA_rel_sem thread (← get).Magic) ≠ 0 then
      body
      modify fun w => { w with Magic := 0, DelPtr := w.DelPtr - 1 }
      rounds body fuel

/-- `#define delete for (…; DUMA_RELEASE_SEMAPHORE(_duma_g.TLS.Magic); …) delete` -/
def delete (fuel : ℕ) (site : Site) (body : M Unit) : M Unit := do
  DUMA_get_sem thread
  DUMA_get_sem thread
  modify fun w => { w with DelPtr := w.DelPtr + 1 }
  if DUMA_MAX_DEL_DEPTH ≤ (← get).DelPtr then throw .assertion
  modify fun w => { w with
    Magic := 1
    DelFile := Function.update w.DelFile w.DelPtr site.file
    DelLine := Function.update w.DelLine w.DelPtr site.line }
  rounds thread body fuel

/-- `operator delete`; `_duma_deallocate` takes the lock once and gives it back. -/
def operatorDelete (own : Site) : M Unit := do
  let w ← get
  record thread (.operatorDelete own (w.DelFile w.DelPtr) (w.DelLine w.DelPtr))
  DUMA_get_sem thread
  let _ ← DUMA_rel_sem thread 0

def body (site : Site) (inner : M Unit) : M Unit := do
  modify fun w => { w with running := w.running + 1 }
  record thread (.body site)
  inner
  modify fun w => { w with running := w.running - 1 }

/-- The delete expressions as the macro has them run. A null pointer has no destructor and is not
passed to `operator delete`. -/
def Deletes.run (fuel : ℕ) : Deletes → M Unit
  | .none => pure ()
  | .object site destructor rest => do
    delete thread fuel site (body thread site do
      destructor.run fuel
      operatorDelete thread site)
    rest.run fuel
  | .null site rest => do
    delete thread fuel site (body thread site (pure ()))
    rest.run fuel

end Duma.Delete

import Mathlib.Data.Int.Notation
import Mathlib.Data.Nat.Notation
import Mathlib.Logic.Function.Basic

/-! # The recursive lock

`DUMA_get_sem` and `DUMA_rel_sem` over a pthread mutex, one shared access a step. A thread is named
by its nonzero id; 0 is the `mutextid` of a lock that nobody holds.
-/

namespace Duma.Semaphore

/-- Where a thread is in `DUMA_get_sem`, `DUMA_rel_sem` and the functions they call. -/
inductive Pc
  /-- in neither function -/
  | idle
  /-- `if (semInInit) return; if (!semInited) DUMA_init_sem();` -/
  | getEntry
  /-- `pthread_mutex_trylock(&mutex)` -/
  | trylock
  /-- `mutextid == pthread_self()` -/
  | readOwner
  /-- `++locknr` -/
  | incNest
  /-- `pthread_mutex_lock(&mutex)` -/
  | mutexLock
  /-- `mutextid = pthread_self()` -/
  | setOwner
  /-- `locknr = 1` -/
  | setNest
  /-- `++semDepth` -/
  | incDepth
  /-- `if (semInInit) return retval; if (!semInited) DUMA_Abort(…);` -/
  | relEntry
  /-- `if (semDepth <= 0) DUMA_Abort(…)` -/
  | testDepth
  /-- `--semDepth` -/
  | decDepth
  /-- `--locknr` -/
  | decNest
  /-- `if (!locknr)` -/
  | testNest
  /-- `mutextid = 0` -/
  | clearOwner
  /-- `pthread_mutex_unlock(&mutex)` -/
  | mutexUnlock
  /-- `DUMA_Abort` -/
  | aborted
  deriving DecidableEq, Repr

/-- A thread, with the number of its calls of `DUMA_get_sem` that have returned less that of its
calls of `DUMA_rel_sem` that have. -/
structure Thread where
  pc : Pc
  depth : ℕ
  deriving DecidableEq, Repr

/-- The static variables of `sem_inc.c` and the threads. -/
structure State where
  /-- the thread that has locked `mutex` -/
  mutex : Option ℕ
  mutextid : ℕ
  locknr : ℤ
  semInInit : Bool
  semInited : Bool
  semDepth : ℤ
  threads : ℕ → Thread

def State.initial : State where
  mutex := none
  mutextid := 0
  locknr := 0
  semInInit := false
  semInited := true
  semDepth := 0
  threads _ := ⟨.idle, 0⟩

inductive Action
  | get
  | rel
  | go
  deriving DecidableEq, Repr

def State.goto (s : State) (t : ℕ) (pc : Pc) : State :=
  { s with threads := Function.update s.threads t { s.threads t with pc } }

def State.finish (s : State) (t depth : ℕ) : State :=
  { s with threads := Function.update s.threads t ⟨.idle, depth⟩ }

/-- One step of thread `t`, if it can make it. -/
def State.step (s : State) (t : ℕ) : Action → Option State
  | .get => if (s.threads t).pc = .idle then some (s.goto t .getEntry) else none
  | .rel =>
    if (s.threads t).pc = .idle ∧ 0 < (s.threads t).depth then some (s.goto t .relEntry) else none
  | .go =>
    let depth := (s.threads t).depth
    match (s.threads t).pc with
    | .idle => none
    | .getEntry =>
      if s.semInInit then some (s.finish t (depth + 1))
      -- `DUMA_init_sem` makes the mutex anew
      else if s.semInited then some (s.goto t .trylock)
      else some ({ s with mutex := none, semInited := true }.goto t .trylock)
    | .trylock =>
      match s.mutex with
      | none => some ({ s with mutex := some t }.goto t .setOwner)
      | some _ => some (s.goto t .readOwner)
    | .readOwner => some (s.goto t (if s.mutextid = t then .incNest else .mutexLock))
    | .incNest => some ({ s with locknr := s.locknr + 1 }.goto t .incDepth)
    | .mutexLock =>
      match s.mutex with
      | none => some ({ s with mutex := some t }.goto t .setOwner)
      | some _ => none
    | .setOwner => some ({ s with mutextid := t }.goto t .setNest)
    | .setNest => some ({ s with locknr := 1 }.goto t .incDepth)
    | .incDepth => some ({ s with semDepth := s.semDepth + 1 }.finish t (depth + 1))
    | .relEntry =>
      if s.semInInit then some (s.finish t (depth - 1))
      else some (s.goto t (if s.semInited then .testDepth else .aborted))
    | .testDepth => some (s.goto t (if s.semDepth ≤ 0 then .aborted else .decDepth))
    | .decDepth => some ({ s with semDepth := s.semDepth - 1 }.goto t .decNest)
    | .decNest => some ({ s with locknr := s.locknr - 1 }.goto t .testNest)
    | .testNest =>
      if s.locknr = 0 then some (s.goto t .clearOwner) else some (s.finish t (depth - 1))
    | .clearOwner => some ({ s with mutextid := 0 }.goto t .mutexUnlock)
    | .mutexUnlock => some ({ s with mutex := none }.finish t (depth - 1))
    | .aborted => none

/-- The states of all interleavings of well-bracketed calls by threads with nonzero ids. -/
inductive Reach : State → Prop
  | initial : Reach State.initial
  | step {s s' : State} {t : ℕ} {a : Action} (hs : Reach s) (ht : t ≠ 0)
      (h : s.step t a = some s') : Reach s'

end Duma.Semaphore

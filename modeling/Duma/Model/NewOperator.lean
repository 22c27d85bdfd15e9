import Duma.Model.Run

/-! # The operators `new`

`duma_new_operator` tries to allocate until it gets memory. After each failure it calls the new
handler that is installed then, which may do anything: free memory, allocate, throw.
-/

namespace Duma

/-- What a new handler does when it is called: its calls of DUMA, and whether it throws `bad_alloc`
behind them. -/
structure NewHandler where
  calls : List Call
  throws : Bool

inductive NewResult
  | pointer (ret : ℕ)
  | badAlloc
  deriving DecidableEq, Repr

variable (env : Env) (settings : Settings)

def execCalls : List Call → M Unit
  | [] => pure ()
  | c :: rest => do
    let _ ← c.exec env settings
    execCalls rest

/-- How the loop ends without memory. -/
def refusal (dothrow : Bool) : NewResult := if dothrow then .badAlloc else .pointer 0

variable (handlers : ℕ → Option NewHandler) (userSize : ℕ) (allocator : Allocator) (dothrow : Bool)
  (site : Site)

/-- The loop of `duma_new_operator`; `handlers k` is the handler installed at the failure `k`. -/
def newLoop : ℕ → ℕ → M NewResult
  | 0, _ => throw .outOfFuel
  | fuel + 1, k => do
    let ret ← allocate env ((← get).tls.newRequest userSize allocator site)
    if ret ≠ 0 then pure (.pointer ret)
    else
      match handlers k with
      | some h => do
        execCalls env settings h.calls
        if h.throws then pure (refusal dothrow) else newLoop fuel (k + 1)
      | none => pure (refusal dothrow)

def dumaNewOperator (fuel : ℕ) : M NewResult := do
  initOnDemand env settings
  newLoop env settings handlers userSize allocator dothrow site fuel 0

end Duma

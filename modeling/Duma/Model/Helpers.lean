import Duma.Model.Paging

/-! # Helper functions

Giving up protected memory, finding slots by address, and filling and checking the no man's
land around a block.
-/

namespace Duma

variable (env : Env)

/-- The internal size kept by a protected slot: the pages up to the one of `userAddress`. -/
def Slot.keptSize (sl : Slot) : ℕ :=
  Word.clearLow (Word.add (Word.sub sl.userAddress sl.internalAddress) env.pageSize) env.pageSize

def kB (size : ℕ) : ℕ := Word.add size 1023 / 1024

/-- Free memory above `userAddress` in the slots from index `i` on; keep `userAddress`
protected. -/
def reduceToBegin (reductionSizekB : ℕ) : ℕ → ℕ → ℕ → M (ℕ × Bool)
  | 0, _, alreadyReducekB => pure (alreadyReducekB, false)
  | count + 1, i, alreadyReducekB =>
    if reductionSizekB ≤ alreadyReducekB then pure (alreadyReducekB, false)
    else do
      let sl ← readSlot env i
      if sl.state = .allProtected then
        let newSize := sl.keptSize env
        let delSize := Word.sub sl.internalSize newSize
        pageDelete env (Word.add sl.internalAddress newSize) delSize
        let alreadyReducekB := Word.add alreadyReducekB (kB delSize)
        modifySlot env i fun sl => { sl with state := .beginProtected, internalSize := newSize }
        if reductionSizekB ≤ alreadyReducekB then pure (alreadyReducekB, true)
        else reduceToBegin reductionSizekB count (i + 1) alreadyReducekB
      else reduceToBegin reductionSizekB count (i + 1) alreadyReducekB

/-- Deallocate the pages with `userAddress` in the slots from index `i` on; empty the whole
slot. -/
def reduceToEmpty (reductionSizekB : ℕ) : ℕ → ℕ → ℕ → M (ℕ × Bool)
  | 0, _, alreadyReducekB => pure (alreadyReducekB, false)
  | count + 1, i, alreadyReducekB =>
    if reductionSizekB ≤ alreadyReducekB then pure (alreadyReducekB, false)
    else do
      let sl ← readSlot env i
      if sl.state = .beginProtected then
        pageDelete env sl.internalAddress sl.internalSize
        let alreadyReducekB := Word.add alreadyReducekB (kB sl.internalSize)
        modifySlot env i Slot.emptied
        if reductionSizekB ≤ alreadyReducekB then pure (alreadyReducekB, true)
        else reduceToEmpty reductionSizekB count (i + 1) alreadyReducekB
      else reduceToEmpty reductionSizekB count (i + 1) alreadyReducekB

def reduceSums (alreadyReducekB : ℕ) : M Unit := modifyBook fun b =>
  { b with
    sumProtectedMem := b.sumProtectedMem - alreadyReducekB
    sumAllocatedMem := b.sumAllocatedMem - alreadyReducekB }

/-- Delete `reductionSizekB` kB of protected memory; `true` when that much was found. -/
def reduceProtectedMemory (reductionSizekB : ℕ) : M Bool := do
  let slotCount := (← get).slots.length
  let (already, done) ← reduceToBegin env reductionSizekB slotCount 0 0
  if done then
    reduceSums already
    pure true
  else
    let (already, done) ← reduceToEmpty env reductionSizekB slotCount 0 already
    if done then
      reduceSums already
      pure true
    else
      modify fun s => s.log (.shortfall already)
      pure false

def findSlot (p : Slot → Bool) (slots : List Slot) : Option (ℕ × Slot) :=
  (slots.findIdx? p).bind fun i => (slots[i]?).map fun sl => (i, sl)

def slotForUserAddress (address : ℕ) : M (Option (ℕ × Slot)) := do
  pure (findSlot (·.userAddress == address) (← readSlots env))

def nearestSlotForUserAddress (userAddress : ℕ) : M (Option (ℕ × Slot)) := do
  pure (findSlot (fun sl => decide (sl.internalAddress ≤ userAddress ∧
    userAddress ≤ Word.add sl.internalAddress sl.internalSize)) (← readSlots env))

/-- The accessible non-protectable address area of a slot. -/
def Slot.accessArea (sl : Slot) : ℕ × ℕ :=
  if sl.protAddress < sl.userAddress then
    (sl.userAddress, Word.add sl.internalAddress sl.internalSize)
  else (sl.internalAddress, sl.protAddress)

def Slot.userEnd (sl : Slot) : ℕ := Word.add sl.userAddress sl.userSize

def initSlack (i : ℕ) : M Unit := do
  let fill := (← get).cfg.slackfill
  if env.explicitInit then modifySlot env i fun sl => { sl with slackfill := fill }
  let sl ← readSlot env i
  if sl.userSize = 0 then pure ()
  else
    let (accBegAddr, accEndAddr) := sl.accessArea
    storeRange env accBegAddr sl.userAddress fun _ => fill
    storeRange env sl.userEnd accEndAddr fun _ => fill

/-- Read the bytes of `[lo, hi)` in order and report the first that is not `fill`. -/
def checkRange (fill : UInt8) (lo hi : ℕ) (r : Report) : M Unit := do
  let s ← get
  match (List.range' lo (hi - lo)).find? fun x => s.page env x != .readWrite || s.mem x != fill with
  | none => pure ()
  | some x => if s.page env x = .readWrite then abort r else throw (.segv x)

def State.slackfillOf (s : State) (sl : Slot) : UInt8 :=
  if env.explicitInit then sl.slackfill else s.cfg.slackfill

def checkSlack (sl : Slot) : M Unit := do
  let fill := (← get).slackfillOf env sl
  if sl.userSize = 0 ∨ sl.internalAddress = 0 then pure ()
  else
    let (accBegAddr, accEndAddr) := sl.accessArea
    checkRange env fill accBegAddr sl.userAddress (.slackBelow sl)
    checkRange env fill sl.userEnd accEndAddr (.slackAbove sl)

def checkSlacks : List Slot → M Unit
  | [] => pure ()
  | sl :: rest => do
    if sl.state = .inUse ∧ sl.userSize ≠ 0 then checkSlack env sl
    checkSlacks rest

def checkAllSlacks : M Unit := do
  checkSlacks env (← readSlots env)

/-- The periodic check that every allocation and deallocation starts with. -/
def checkByFreq : M Unit := do
  if 0 < (← get).cfg.checkFreq then
    modifyBook fun b => { b with checkFreqCounter := b.checkFreqCounter + 1 }
    let s ← get
    if s.book.checkFreqCounter = s.cfg.checkFreq then
      checkAllSlacks env
      modifyBook fun b => { b with checkFreqCounter := 0 }

end Duma

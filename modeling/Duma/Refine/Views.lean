import Duma.Foundation.View
import Duma.Model.Deallocate
import Duma.Region.Effects

/-! # What the parts of the allocator leave alone

Only some parts of the allocator change a given counter. For a view `g` of the settings and the
counters, the programs below leave it alone if it does not see the counters that they advance.
-/

namespace Duma

variable {γ : Type} {g : Config → Book → γ} {env : Env} {lo hi i j n al x fuel count : ℕ}
  {f : ℕ → UInt8} {p : Page} {b : Bool} {r : Request} {sl : Slot} {e : Option ℕ} {site : Site}

def State.view (g : Config → Book → γ) (s : State) : γ := g s.cfg s.book

theorem leaves_modify_view {h : State → State} (hc : ∀ s, (h s).cfg = s.cfg)
    (hb : ∀ s, (h s).book = s.book) : Leaves (State.view g) (modify h : M Unit) :=
  leaves_modify fun s => by rw [State.view, State.view, hc, hb]

section Access

theorem touch_leaves : Leaves (State.view g) (touch env lo hi) :=
  Leaves.get_bind fun _ => Leaves.ite (fun _ => leaves_pure) fun _ => leaves_throw

theorem storeRange_leaves : Leaves (State.view g) (storeRange env lo hi f) :=
  touch_leaves.bind fun _ => Leaves.get_bind fun _ => Leaves.ite (fun _ => leaves_throw) fun _ =>
    leaves_modify_view (fun _ => rfl) fun _ => rfl

theorem readSlots_leaves : Leaves (State.view g) (readSlots env) :=
  Leaves.get_bind fun _ => touch_leaves.bind fun _ => leaves_pure

theorem readSlot_leaves : Leaves (State.view g) (readSlot env i) := by
  refine readSlots_leaves.bind fun slots => ?_
  split
  · exact leaves_pure
  · exact Leaves.get_bind fun _ => leaves_throw

theorem modifySlot_leaves {h : Slot → Slot} : Leaves (State.view g) (modifySlot env i h) :=
  readSlot_leaves.bind fun _ =>
    leaves_modify_view (fun _ => State.putSlot_cfg) fun _ => State.putSlot_book

theorem mprotect_leaves : Leaves (State.view g) (mprotect env lo n p) :=
  Leaves.get_bind fun _ => Leaves.ite
    (fun _ => leaves_modify_view (fun _ => rfl) fun _ => rfl) fun _ => leaves_throw

theorem slotForUserAddress_leaves : Leaves (State.view g) (slotForUserAddress env x) :=
  readSlots_leaves.bind fun _ => leaves_pure

theorem nearestSlotForUserAddress_leaves :
    Leaves (State.view g) (nearestSlotForUserAddress env x) :=
  readSlots_leaves.bind fun _ => leaves_pure

end Access

section Place

theorem placeBlock_leaves : Leaves (State.view g) (placeBlock env x n al r) := by
  refine Leaves.ite (fun _ => ?_) fun _ => Leaves.ite (fun _ => ?_) fun _ => ?_
  · exact mprotect_leaves.bind fun _ => leaves_pure
  · exact mprotect_leaves.bind fun _ => mprotect_leaves.bind fun _ => leaves_pure
  · exact mprotect_leaves.bind fun _ => mprotect_leaves.bind fun _ => leaves_pure

theorem initSlack_leaves : Leaves (State.view g) (initSlack env i) := by
  have rest : ∀ fill : UInt8, Leaves (State.view g) (do
      let sl ← readSlot env i
      if sl.userSize = 0 then pure ()
      else
        storeRange env sl.accessArea.1 sl.userAddress fun _ => fill
        storeRange env sl.userEnd sl.accessArea.2 fun _ => fill : M Unit) := fun fill =>
    readSlot_leaves.bind fun sl => Leaves.ite (fun _ => leaves_pure) fun _ =>
      storeRange_leaves.bind fun _ => storeRange_leaves
  refine Leaves.get_bind fun s => Leaves.ite (fun _ => ?_) fun _ => rest _
  exact modifySlot_leaves.bind fun _ => rest _

theorem takeSlot_leaves : Leaves (State.view g) (takeSlot env i n al r) :=
  readSlot_leaves.bind fun _ => placeBlock_leaves.bind fun _ => Leaves.get_bind fun _ =>
    modifySlot_leaves.bind fun _ => initSlack_leaves.bind fun _ => leaves_pure

theorem splitSlot_leaves (hu : ∀ c b u, g c { b with unUsedSlots := u } = g c b) :
    Leaves (State.view g) (splitSlot env i e n) := by
  refine readSlot_leaves.bind fun sl => Leaves.ite (fun _ => ?_) fun _ => leaves_pure
  cases e with
  | none => exact leaves_throw
  | some j =>
    exact modifySlot_leaves.bind fun _ => modifySlot_leaves.bind fun _ =>
      leaves_modify fun s => hu s.cfg s.book _

theorem serveSlot_leaves (hu : ∀ c b u, g c { b with unUsedSlots := u } = g c b) :
    Leaves (State.view g) (do
      let sl ← readSlot env i
      if sl.internalSize ≠ 0 then
        splitSlot env i e n
        takeSlot env i n al r
      else pure 0 : M ℕ) :=
  readSlot_leaves.bind fun _ => Leaves.ite
    (fun _ => (splitSlot_leaves hu).bind fun _ => takeSlot_leaves) fun _ => leaves_pure

end Place

section Lock

variable (hd : ∀ c b d, g c { b with semDepth := d } = g c b)
include hd

theorem openAllocList_leaves : Leaves (State.view g) (openAllocList env) := by
  refine Leaves.bind ?_ fun _ => Leaves.get_bind fun _ => mprotect_leaves
  exact Leaves.get_bind fun _ => Leaves.ite (fun _ => leaves_pure) fun _ =>
    leaves_modify fun s => hd s.cfg s.book _

theorem closeAllocList_leaves : Leaves (State.view g) (closeAllocList env) := by
  refine Leaves.get_bind fun _ => mprotect_leaves.bind fun _ => Leaves.get_bind fun _ => ?_
  exact Leaves.ite (fun _ => leaves_pure) fun _ => Leaves.ite (fun _ => leaves_throw) fun _ =>
    leaves_modify fun s => hd s.cfg s.book _

theorem allocateEpilog_leaves : Leaves (State.view g) (allocateEpilog env x r) := by
  have fill : Leaves (State.view g) (do
      if x ≠ 0 ∧ r.fillByte ≠ -1 ∧ r.userSize ≠ 0 then
        storeRange env x (x + r.userSize) fun _ => UInt8.ofInt r.fillByte
      pure x : M ℕ) :=
    Leaves.ite (fun _ => storeRange_leaves.bind fun _ => leaves_pure) fun _ => leaves_pure
  exact Leaves.ite (fun _ => (closeAllocList_leaves hd).bind fun _ => fill) fun _ => fill

end Lock

section Check

theorem checkRange_leaves {fill : UInt8} {rep : Report} :
    Leaves (State.view g) (checkRange env fill lo hi rep) := by
  refine Leaves.get_bind fun s => ?_
  split
  · exact leaves_pure
  · exact Leaves.ite (fun _ => leaves_throw) fun _ => leaves_throw

theorem checkSlack_leaves : Leaves (State.view g) (checkSlack env sl) :=
  Leaves.get_bind fun _ => Leaves.ite (fun _ => leaves_pure) fun _ =>
    checkRange_leaves.bind fun _ => checkRange_leaves

theorem slotToFree_leaves {allocator : Allocator} :
    Leaves (State.view g) (slotToFree env x allocator site) := by
  refine slotForUserAddress_leaves.bind fun v => ?_
  split
  · exact nearestSlotForUserAddress_leaves.bind fun _ => leaves_throw
  · exact Leaves.ite (fun _ => leaves_throw) fun _ => Leaves.ite (fun _ => leaves_throw) fun _ =>
      leaves_pure

end Check

/-- The view does not see the counters of the slots, the memory and the system calls. -/
structure BlindToMemory (g : Config → Book → γ) : Prop where
  unused : ∀ c b u, g c { b with unUsedSlots := u } = g c b
  sums : ∀ c b u v w, g c { b with
    sumAllocatedMem := u, sumTotalAllocatedMem := v, sumProtectedMem := w } = g c b
  calls : ∀ c b u v, g c { b with mmapCalls := u, munmapCalls := v } = g c b

namespace BlindToMemory

variable (hg : BlindToMemory g)
include hg

theorem pageCreate : Leaves (State.view g) (pageCreate env n b) := by
  refine Leaves.get_bind fun s => Leaves.bind (leaves_modify fun s => ?_) fun _ => ?_
  · exact hg.calls s.cfg s.book (s.book.mmapCalls + 1) s.book.munmapCalls
  · split
    · exact Leaves.bind (leaves_modify_view (fun _ => rfl) fun _ => rfl) fun _ => leaves_pure
    · exact Leaves.ite (fun _ => leaves_throw) fun _ => leaves_pure

theorem pageDelete : Leaves (State.view g) (pageDelete env x n) := by
  refine Leaves.bind (Leaves.get_bind fun s => ?_) fun b => Leaves.ite (fun _ => ?_) fun _ => ?_
  · exact Leaves.bind (leaves_modify fun s => hg.calls s.cfg s.book s.book.mmapCalls _)
      fun _ => leaves_pure
  · exact leaves_modify_view (fun _ => rfl) fun _ => rfl
  · exact mprotect_leaves.bind fun _ => leaves_modify_view (fun _ => rfl) fun _ => rfl

theorem reduceSums : Leaves (State.view g) (reduceSums n) :=
  leaves_modify fun s => hg.sums s.cfg s.book _ s.book.sumTotalAllocatedMem _

theorem reduceToBegin : Leaves (State.view g) (reduceToBegin env n count i x) := by
  induction count generalizing i x with
  | zero => exact leaves_pure
  | succ count ih =>
    refine Leaves.ite (fun _ => leaves_pure) fun _ => readSlot_leaves.bind fun sl =>
      Leaves.ite (fun _ => ?_) fun _ => ih
    exact hg.pageDelete.bind fun _ => modifySlot_leaves.bind fun _ =>
      Leaves.ite (fun _ => leaves_pure) fun _ => ih

theorem reduceToEmpty : Leaves (State.view g) (reduceToEmpty env n count i x) := by
  induction count generalizing i x with
  | zero => exact leaves_pure
  | succ count ih =>
    refine Leaves.ite (fun _ => leaves_pure) fun _ => readSlot_leaves.bind fun sl =>
      Leaves.ite (fun _ => ?_) fun _ => ih
    exact hg.pageDelete.bind fun _ => modifySlot_leaves.bind fun _ =>
      Leaves.ite (fun _ => leaves_pure) fun _ => ih

theorem reduceProtectedMemory : Leaves (State.view g) (reduceProtectedMemory env n) := by
  have done : ∀ k, Leaves (State.view g) (do Duma.reduceSums k; pure true : M Bool) := fun k =>
    hg.reduceSums.bind fun _ => leaves_pure
  refine Leaves.get_bind fun s => hg.reduceToBegin.bind fun v => Leaves.ite (fun _ => done _)
    fun _ => hg.reduceToEmpty.bind fun v => Leaves.ite (fun _ => done _) fun _ => ?_
  exact Leaves.bind (leaves_modify_view (fun _ => rfl) fun _ => rfl) fun _ => leaves_pure

theorem retryCreate : Leaves (State.view g) (retryCreate env x n fuel) := by
  induction fuel with
  | zero => exact leaves_throw
  | succ fuel ih =>
    exact hg.reduceProtectedMemory.bind fun _ => hg.pageCreate.bind fun _ =>
      Leaves.ite (fun _ => ih) fun _ => leaves_pure

theorem createChunk : Leaves (State.view g) (createChunk env n r) := by
  have rest : ∀ a : ℕ, Leaves (State.view g) (do
      let s ← get
      if a = 0 ∧ s.cfg.protectFree ≠ 0 then
        let address ← Duma.retryCreate env (kB n) (Word.mul n (numChunksFor n r.userSize))
          (2 * s.slots.length + 1)
        if address = 0 ∧ r.fail = .failEnv then
          Duma.pageCreate env (Word.mul n (numChunksFor n r.userSize)) s.cfg.mallocFailexit
        else pure address
      else pure a : M ℕ) := fun a =>
    Leaves.get_bind fun s => Leaves.ite (fun _ => hg.retryCreate.bind fun _ =>
      Leaves.ite (fun _ => hg.pageCreate) fun _ => leaves_pure) fun _ => leaves_pure
  exact Leaves.ite (fun _ => rest _) fun _ => hg.pageCreate.bind fun _ => rest _

theorem createMore {e' : Option ℕ} : Leaves (State.view g) (createMore env n r e e') := by
  cases e with
  | none => exact leaves_throw
  | some i =>
    cases e' with
    | none => exact leaves_throw
    | some j =>
      have create : Leaves (State.view g) (do
          let address ← Duma.createChunk env (chunkSizeFor env n) r
          modifySlot env i fun sl => { sl with internalAddress := address }
          if address ≠ 0 then
            let numChunks := numChunksFor (chunkSizeFor env n) r.userSize
            modifyBook fun b =>
              { b with
                sumAllocatedMem :=
                  b.sumAllocatedMem + Word.mul (kB (chunkSizeFor env n)) numChunks
                sumTotalAllocatedMem :=
                  b.sumTotalAllocatedMem + Word.mul (kB (chunkSizeFor env n)) numChunks
                unUsedSlots := Word.sub b.unUsedSlots 1 }
            modifySlot env i fun sl =>
              { sl with internalSize := Word.mul (chunkSizeFor env n) numChunks, state := .free }
          pure (i, some j) : M (ℕ × Option ℕ)) := by
        refine hg.createChunk.bind fun a => modifySlot_leaves.bind fun _ => Leaves.ite (fun _ => ?_)
          fun _ => leaves_pure
        refine Leaves.bind (leaves_modify fun s => ?_) fun _ =>
          modifySlot_leaves.bind fun _ => leaves_pure
        exact (hg.unused s.cfg _ _).trans (hg.sums s.cfg s.book _ _ s.book.sumProtectedMem)
      exact Leaves.get_bind fun s => Leaves.ite
        (fun _ => hg.reduceProtectedMemory.bind fun _ => create) fun _ => create

theorem allocateFromSlots : Leaves (State.view g) (allocateFromSlots env n al r) := by
  refine readSlots_leaves.bind fun slots => ?_
  dsimp only
  split
  · exact leaves_pure.bind fun _ => serveSlot_leaves hg.unused
  · exact hg.createMore.bind fun _ => serveSlot_leaves hg.unused

theorem reduceForFree : Leaves (State.view g) (reduceForFree env n) :=
  Leaves.get_bind fun _ => Leaves.ite (fun _ => hg.reduceProtectedMemory.bind fun _ => leaves_pure)
    fun _ => leaves_pure

theorem protectSlot : Leaves (State.view g) (protectSlot env i sl site) :=
  modifySlot_leaves.bind fun _ => mprotect_leaves.bind fun _ => Leaves.bind
    (leaves_modify fun s => hg.sums s.cfg s.book s.book.sumAllocatedMem
      s.book.sumTotalAllocatedMem _) fun _ => modifySlot_leaves

theorem deleteSlot : Leaves (State.view g) (deleteSlot env i sl) :=
  hg.pageDelete.bind fun _ => Leaves.bind (leaves_modify fun s => hg.sums s.cfg s.book _
    s.book.sumTotalAllocatedMem s.book.sumProtectedMem) fun _ => modifySlot_leaves.bind fun _ =>
      leaves_modify fun s => hg.unused s.cfg s.book _

end BlindToMemory

end Duma

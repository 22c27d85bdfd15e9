import Duma.Runs.Attempts

/-! # Out of memory

A request for which there is no memory returns 0, or it exits the process if it must not fail. The
attempts at a chunk that may exit are only made with `PROTECT_FREE` other than 0.
-/

namespace Duma

variable {env : Env} {settings : Settings} {s t u : State} {w : World} {r : Request}
  {a i j n al p : ℕ} {sl e : Slot} {l : Layout} {len : ℕ → ℕ} {A : Stop → Prop} {x y : Prop}

section Prolog

def openAndCheck (env : Env) (r : Request) : M Unit := do
  if r.protectAllocList then openAllocList env
  checkByFreq env

theorem silents_counted : Silents env (fun _ => False) s s.counted :=
  Quiet.silents ⟨rfl, rfl, rfl, rfl⟩

theorem Safe.counted (hs : Safe env s) : Safe env s.counted :=
  hs.silents (fun _ => False.elim) silents_counted

theorem State.BacksList.entered {b : Bool} (h : s.BacksList env len) :
    (s.entered env b).BacksList env len := by
  refine (State.backsList_congr ?_).mpr h
  cases b <;> rfl

theorem allocateProlog_post (hlist : s.BacksList env len) (hT : Tidy env s) :
    Post (allocateProlog env (allocateMoreSlotsBy env len) r)
      (fun _ u => Inners env (fun _ => False) (s.entered env r.protectAllocList) u) s := by
  have hTe : Tidy env (s.entered env r.protectAllocList) :=
    hT.silents (silents_entered : Silents env (fun _ => False) s _)
  have hgrow : ∀ b, Quiet (s.entered env r.protectAllocList) b →
      Ensures env (fun _ => False) (allocateMoreSlotsBy env len)
        (fun _ u => Inners env (fun _ => False)
          { s.entered env r.protectAllocList with book := b } u) (fun _ => True)
        { s.entered env r.protectAllocList with book := b } := fun b hq =>
    allocateMoreSlots_ensures hlist.entered (hTe.withBook b) ⟨fun _ _ _ _ => trivial, fun _ _ _ =>
      ⟨fun _ _ _ => trivial, fun _ _ _ _ => trivial, fun _ _ => trivial⟩, fun _ => trivial⟩
  have hrest := prolog_ensures (r := r) (s := s.entered env r.protectAllocList) within_inners
    (fun _ => hgrow) fun _ _ _ _ => trivial
  unfold allocateProlog
  refine Wp.mono (enter_wp (B := False) (A := fun _ => True) (k := fun _ => do
      checkByFreq env
      let s ← get
      if r.allocator.type ≠ .internal ∧ s.book.unUsedSlots < 7 then allocateMoreSlotsBy env len)
    False.elim (Wp.mono hrest (fun _ _ => id) fun _ _ _ h => h.elim)) (fun _ _ => id)
    fun _ _ _ => trivial

theorem allocateWith_serves {grow : M Unit} (hl : s.allocList ≠ 0) (h0 : r.userSize ≠ 0)
    (hp : alignmentPasses (s.alignFor r) = true) : allocateWithBy env len grow r s =
      allocateServeBy env len grow (s.sizeFor env r) (s.alignFor r) r s.counted := by
  have halign : s.alignFor r = resolveAlignment s.tls r.alignment r.userSize := if_neg h0
  have hsize : s.sizeFor env r = internalSizeFor env (s.alignFor r) r.userSize := if_neg h0
  rw [hsize, halign]
  rw [halign] at hp
  unfold allocateWithBy
  change (if s.allocList = 0 then _ else _ : M ℕ) s = _
  rw [if_neg hl]
  change (if r.userSize = 0 then _ else _ : M ℕ) s.counted = _
  rw [if_neg h0]
  rw [if_pos hp]

end Prolog

section Growth

variable (hs : Safe env s) (ho : Open env s)
include hs ho

end Growth

section Call

variable (env) (r) (s)

abbrev State.searched : Option State := s.searchedBy env id r

def State.checked : Option State :=
  match openAndCheck env r s.counted with
  | .ok _ v => some v
  | .error _ _ => none

variable {env} {r} {s}

theorem allocateEpilog_ends : Wp (allocateEpilog env a r) (fun p _ => p = a)
    (fun e _ => e.ordinary = true) s := by
  have fill : ∀ t, Wp (do
      if a ≠ 0 ∧ r.fillByte ≠ -1 ∧ r.userSize ≠ 0 then
        storeRange env a (a + r.userSize) fun _ => UInt8.ofInt r.fillByte
      pure a : M ℕ) (fun p _ => p = a) (fun e _ => e.ordinary = true) t := fun t =>
    Wp.ite (fun _ => Wp.seq (storeRange_ends fun _ => id) fun _ _ _ => rfl) fun _ => rfl
  have leave : ∀ b : Bool, Wp (do
      if b then closeAllocList env
      if a ≠ 0 ∧ r.fillByte ≠ -1 ∧ r.userSize ≠ 0 then
        storeRange env a (a + r.userSize) fun _ => UInt8.ofInt r.fillByte
      pure a : M ℕ) (fun p _ => p = a) (fun e _ => e.ordinary = true) s := fun b => by
    cases b with
    | false => exact fill s
    | true => exact Wp.seq (closeAllocList_ends fun _ => id) fun _ t _ => fill t
  exact leave _

variable (hs : Safe env s) (ho : r.protectAllocList = false → Open env s)
include hs

theorem searched_inners (hlist : s.BacksList env len) (h : s.searchedBy env len r = some u) :
    Inners env (fun _ => False) (s.counted.entered env r.protectAllocList) u :=
  (allocateProlog_post (s := s.counted) ((State.backsList_congr rfl).mpr hlist)
    hs.counted.tidy).returns (State.searchedWith_ok h)

theorem Safe.searched (hlist : s.BacksList env len) (h : s.searchedBy env len r = some u) :
    Safe env u :=
  (hs.counted.silents (fun _ => False.elim) silents_entered).silents (fun _ => False.elim)
    (Inners.silents (searched_inners hs hlist h))

include ho

theorem searched_open (hlist : s.BacksList env len) (h : s.searchedBy env len r = some u) :
    Open env u := by
  have hentry : Entry env (fun _ => False) r.protectAllocList s.counted :=
    ⟨⟨fun _ => False.elim, hs.counted.core, hs.counted.live⟩, ho⟩
  exact (hentry.pre.inners (searched_inners hs hlist h)).ready.open

end Call

section Policy

end Policy

end Duma

import Duma.Refine.Free
import Duma.Refine.Serve

/-! # Allocation

What an allocation does when it returns: it hands out a slot after steps that no block of the
program notices, or it fails. The stops are described for calls that start under the invariants.
-/

namespace Duma

variable {env : Env} {ok : ℕ → Prop} {s s' t : State} {i n al p : ℕ} {sl new : Slot} {r : Request}
  {A : Stop → Prop} {l : Layout} {grow : M Unit} {len : ℕ → ℕ}

/-- The steps that may come before a slot is handed out: atomic ones, or inner ones, which may
also move the slot list. -/
structure Within (env : Env) (X : (ℕ → Prop) → State → State → Prop) : Prop where
  bases : ∀ {ok s t}, Bases env ok s t → X ok s t
  trans : ∀ {ok s t u}, X ok s t → X ok t u → X ok s u
  mono : ∀ {ok s t}, X (fun _ => False) s t → X ok s t
  inners : ∀ {ok s t}, X ok s t → Inners env ok s t

theorem within_bases : Within env (Bases env) :=
  ⟨id, fun h h' => h.trans h', fun h => Bases.mono (fun _ => False.elim) h, Bases.inners⟩

theorem within_inners : Within env (Inners env) :=
  ⟨Bases.inners, fun h h' => h.trans h', fun h => Inners.mono (fun _ => False.elim) h, id⟩

variable {X : (ℕ → Prop) → State → State → Prop}

inductive Handed (env : Env) (X : (ℕ → Prop) → State → State → Prop) (ok : ℕ → Prop) (n al : ℕ)
    (r : Request) (s : State) (p : ℕ) (t : State) : Prop
  | none (h : X (fun _ => False) s t) (hp : p = 0)
  | some {i : ℕ} {l : Layout} {u : State} (h : X ok s u) (ht : Take env n al r i l u t)
      (hp : p = l.userAddr)

theorem Handed.of_steps (hX : Within env X) (h : X (fun _ => False) s s')
    (hh : Handed env X ok n al r s' p t) : Handed env X ok n al r s p t := by
  cases hh with
  | none h' hp => exact .none (hX.trans h h') hp
  | some h' ht hp => exact .some (hX.trans (hX.mono h) h') ht hp

/-- What the stops of an allocation that searches the slots in a state of `P` may be. -/
structure AllocStops (env : Env) (n al : ℕ) (r : Request) (X : (ℕ → Prop) → State → State → Prop)
    (P : State → Prop) (A : Stop → Prop) (s : State) : Prop where
  slack : ∀ sl e, Overwritten env s sl → SlackReport sl e → A e
  serve : ∀ t, X (fun _ => False) s t → P t → ServeStops env n al r A t

section Fill

def State.filled (t : State) (r : Request) (p : ℕ) : State :=
  if p ≠ 0 ∧ r.fillByte ≠ -1 ∧ r.userSize ≠ 0 then
    t.store p (p + r.userSize) fun _ => UInt8.ofInt r.fillByte
  else t

structure BlockAt (env : Env) (s : State) (p n : ℕ) : Prop where
  core : Core env s
  access : ∀ x, p ≤ x → x < p + n → s.page env x = .readWrite
  slot : ∃ (i : ℕ) (sl : Slot), s.slots[i]? = some sl ∧ ¬ sl.IsList s ∧
    ∀ x, p ≤ x → x < p + n → sl.Owns x

theorem BlockAt.apart (h : BlockAt env s p n) (h0 : 0 < n) :
    p + n ≤ s.allocList ∨ s.allocList + s.allocListSize ≤ p := by
  obtain ⟨i, sl, hi, hl, hown⟩ := h.slot
  exact h.core.list_apart hi hl (by omega) hown

theorem BlockAt.left {b : Bool} (h : BlockAt env s p n) : BlockAt env (s.left env b) p n := by
  cases b with
  | false => exact h
  | true =>
    obtain ⟨i, sl, hi, hl, hown⟩ := h.slot
    have hc : Core env (s.setList env .noAccess) := h.core.setList nofun
    refine ⟨hc.of_book, fun x h1 h2 => ?_, i, sl, hi, fun hL =>
      hl ⟨hL.state, hL.allocator, hL.user, hL.size⟩, hown⟩
    have := h.core.setList_page (p := .noAccess) x
    have hap := h.apart (by omega)
    rw [if_neg (by omega)] at this
    exact this.trans (h.access x h1 h2)

theorem fill_wp {B : Prop} (hB : B → p ≠ 0 → BlockAt env s p r.userSize) :
    Wp (do
      if p ≠ 0 ∧ r.fillByte ≠ -1 ∧ r.userSize ≠ 0 then
        storeRange env p (p + r.userSize) fun _ => UInt8.ofInt r.fillByte
      pure p : M ℕ) (fun v t => v = p ∧ t = s.filled r p) (fun e _ => B → A e) s := by
  unfold State.filled
  refine Wp.ite (fun h => Wp.bind_iff.mpr ?_) fun h => ?_
  · rw [if_pos h]
    refine Wp.mono (storeRange_under fun hb => ⟨(hB hb h.1).access, fun _ =>
      (hB hb h.1).apart (by omega)⟩) (fun _ _ ht => ⟨rfl, ht⟩) fun _ _ => id
  · rw [if_neg h]
    exact ⟨rfl, rfl⟩

theorem Taken.blockAt (h : Taken env n al r i l s s' sl new) (hc : Core env s)
    (hc' : Core env s') : BlockAt env s' l.userAddr r.userSize := by
  have hu : new.userAddress = l.userAddr := by rw [h.new_eq]; rfl
  have hn : new.userSize = r.userSize := by rw [h.new_eq]; rfl
  have hin : ∀ x, l.userAddr ≤ x → x < l.userAddr + r.userSize → new.Live x := fun x h1 h2 =>
    h.placed.live_of_inBlock h.region' ⟨by rw [hu]; exact h1, by rw [hu, hn]; exact h2⟩
  have hi : s'.slots[i]? = some new := by rw [h.slot, if_pos rfl]
  refine ⟨hc', fun x h1 h2 => h.live (hin x h1 h2), i, new, hi, fun hL => ?_, fun x h1 h2 =>
    h.placed.owns_of_live h.region' (hin x h1 h2)⟩
  obtain ⟨k, sl', hk, hL', -⟩ := hc.list_slot
  have hne : i ≠ k := by
    rintro rfl
    have ho := h.old
    rw [hk] at ho
    cases ho
    have := h.free
    rw [hL'.state] at this; cases this
  have hk' : s'.slots[k]? = some sl' := by rw [h.slot, if_neg hne, hk]
  obtain ⟨-, -, -, -, -, h1, -⟩ := h.frame
  exact hne (hc'.eq_of_user hi hk' (by rw [hL.user, h1, hL'.user])
    (by rw [hL.user]; exact hc'.allocList_pos.ne'))

theorem Handed.blockAt (hX : Within env X) (hp : Pre env ok s) (hS : Served env n al r)
    (hL : r.ListLike env al) (h : Handed env X ok n al r s p t) (h0 : p ≠ 0) :
    BlockAt env t p r.userSize := by
  cases h with
  | none _ hz => exact absurd hz h0
  | some hi ht hp' =>
    have hc := (hp.inners (hX.inners hi)).ready.core
    obtain ⟨sl, new, hT⟩ := ht.taken hc hS
    exact hp' ▸ hT.blockAt hc (ht.core hc hS hL)

theorem Handed.core (hX : Within env X) (hp : Pre env ok s) (hS : Served env n al r)
    (hL : r.ListLike env al) (h : Handed env X ok n al r s p t) : Core env t := by
  cases h with
  | none hi => exact (hp.inners (hX.inners (hX.mono hi))).ready.core
  | some hi ht => exact ht.core (hp.inners (hX.inners hi)).ready.core hS hL

end Fill

section Lock

theorem Take.same (h : Take env n al r i l s s') : Same s s' := by
  obtain ⟨hi, -, -, -, -⟩ := h
  obtain ⟨mem, trace, he, -⟩ := @State.took_eq env s i n _ r l
  rw [he]
  exact ⟨rfl, rfl, rfl, rfl, rfl⟩

theorem Growth.same (h : Growth env s s') : Same s s' := by
  have switch : ∀ (t : State) (a n : ℕ), Same t (t.switchList env a n) := fun t a n =>
    ⟨rfl, rfl, rfl, rfl, rfl⟩
  cases h with
  | moved h₁ ht _ _ h₃ _ _ _ _ _ hr =>
    exact (Bases.same h₁).trans (ht.same.trans ((switch _ _ _).trans ((Bases.same h₃).trans hr.same)))
  | stuck h₁ ht _ _ _ he => exact he ▸ (Bases.same h₁).trans (ht.same.trans (switch _ _ _))
  | lost h₁ ht => exact (Bases.same h₁).trans ht.same

theorem Inners.same (h : Inners env ok s s') : Same s s' := by
  induction h with
  | refl => exact Same.refl s
  | tail _ hi ih =>
    cases hi with
    | base hb => exact ih.trans hb.same
    | growth hg => exact ih.trans hg.same

theorem Handed.same (hX : Within env X) (h : Handed env X ok n al r s p t) : Same s t := by
  cases h with
  | none hi => exact Inners.same (hX.inners hi)
  | some hi ht => exact (Inners.same (hX.inners hi)).trans ht.same

end Lock

/-- The prolog behind the opening of the list. -/
theorem prolog_ensures (hX : Within env X)
    (hgrow : r.allocator.type ≠ .internal → ∀ b, Quiet s b →
      Ensures env ok grow (fun _ u => X (fun _ => False) { s with book := b } u) A
        { s with book := b })
    (hA : ∀ sl e, Overwritten env s sl → SlackReport sl e → A e) :
    Ensures env ok (do
      checkByFreq env
      let s ← get
      if r.allocator.type ≠ .internal ∧ s.book.unUsedSlots < 7 then grow : M Unit)
      (fun _ t => X (fun _ => False) s t) A s := by
  refine Wp.seq (checkByFreq_ensures hA) ?_
  rintro _ _ ⟨b, hq, rfl⟩
  have hst : X (fun _ => False) s { s with book := b } := hX.bases hq.bases
  refine Wp.bind_iff.mpr (Wp.get_iff.mpr (Wp.ite (fun h => ?_) fun _ => hst))
  refine Wp.mono (hgrow h.1 b hq) (fun _ u hu => hX.trans hst hu) fun e _ he hp => he ?_
  exact hp.inners (hX.inners (hX.mono hst))

theorem allocateServe_wp {B : Prop} (hX : Within env X)
    (hlen : ∀ t, allocateProlog env grow r s = .ok ⟨⟩ t → t.BacksChunk env len n r) (hok : ok n)
    (hS : (∀ m, ok m → WholePages env m) → Served env n al r) (hL : B → r.ListLike env al)
    (hT : Tidy env s) (hB : B → Entry env ok r.protectAllocList s)
    (hgrow : r.allocator.type ≠ .internal → ∀ b, Quiet (s.entered env r.protectAllocList) b →
      Ensures env ok grow
        (fun _ u => X (fun _ => False) { s.entered env r.protectAllocList with book := b } u) A
        { s.entered env r.protectAllocList with book := b })
    (hA : AllocStops env n al r X (fun t => allocateProlog env grow r s = .ok ⟨⟩ t) A
      (s.entered env r.protectAllocList)) :
    Wp (allocateServeBy env len grow n al r)
      (fun p t => ∃ u, Handed env X ok n al r (s.entered env r.protectAllocList) p u ∧
        t = (u.left env r.protectAllocList).filled r p) (fun e _ => B → A e) s := by
  have hsil : Silents env ok s (s.entered env r.protectAllocList) := silents_entered
  have hTe : Tidy env (s.entered env r.protectAllocList) := hT.silents hsil
  have hpre : B → Pre env ok (s.entered env r.protectAllocList) := fun hb => (hB hb).pre
  have under : ∀ {α : Type} {m : M α} {R : α → State → Prop} {t : State},
      X (fun _ => False) (s.entered env r.protectAllocList) t → Ensures env ok m R A t →
        Wp m R (fun e _ => B → A e) t := fun hst h =>
    Wp.mono h (fun _ _ => id) fun _ _ he hb =>
      he ((hpre hb).inners (hX.inners (hX.mono hst)))
  unfold allocateServeBy
  refine Wp.seq (R := fun _ t => allocateProlog env grow r s = .ok ⟨⟩ t ∧
    X (fun _ => False) (s.entered env r.protectAllocList) t) (Wp.keep ?_) ?_
  · unfold allocateProlog
    exact enter_wp (k := fun _ => do
      checkByFreq env
      let s ← get
      if r.allocator.type ≠ .internal ∧ s.book.unUsedSlots < 7 then grow)
      (fun hb => (hB hb).core) (under (hX.bases .refl) (prolog_ensures hX hgrow hA.slack))
  rintro _ t ⟨hpro, ht⟩
  refine Wp.seq (under ht (allocateFromSlots_ensures (fun i sl hi he =>
    ((hTe.inners (hX.inners ht)).empty hi he).1) (hlen t hpro) hok hS fun _ =>
      hA.serve t ht hpro)) ?_
  rintro p u hu
  have hh : Handed env X ok n al r (s.entered env r.protectAllocList) p u := by
    refine Handed.of_steps hX ht ?_
    rcases hu with ⟨hp, hb, -⟩ | ⟨-, i, l, v, hb, hT, hp⟩
    exacts [.none (hX.bases hb) hp, .some (hX.bases hb) hT hp]
  have hserved : B → Served env n al r := fun hb => hS (hB hb).whole
  unfold allocateEpilog
  refine leave_wp (k := fun _ => do
    if p ≠ 0 ∧ r.fillByte ≠ -1 ∧ r.userSize ≠ 0 then
      storeRange env p (p + r.userSize) fun _ => UInt8.ofInt r.fillByte
    pure p) (fun hb => ⟨hh.core hX (hpre hb) (hserved hb) (hL hb), fun hbt => (hh.same hX).held ?_⟩) ?_
  · rw [hbt]
    exact State.opened_held s
  · refine Wp.post (fill_wp fun hb h0 => (hh.blockAt hX (hpre hb) (hserved hb) (hL hb) h0).left) ?_
    rintro v t ⟨rfl, rfl⟩
    exact ⟨u, hh, rfl⟩

section Whole

def State.alignFor (s : State) (r : Request) : ℕ :=
  if r.userSize = 0 then r.alignment else resolveAlignment s.tls r.alignment r.userSize

def State.sizeFor (env : Env) (s : State) (r : Request) : ℕ :=
  if r.userSize = 0 then env.pageSize else internalSizeFor env (s.alignFor r) r.userSize

def State.counted (s : State) : State :=
  { s with book := { s.book with numAllocs := s.book.numAllocs + 1 } }

/-- The state in which an allocation searches the slots, if it gets there. -/
def State.searchedWith (env : Env) (grow : M Unit) (r : Request) (s : State) : Option State :=
  match allocateProlog env grow r s.counted with
  | .ok _ u => some u
  | .error _ _ => none

theorem State.searchedWith_of (h : allocateProlog env grow r s.counted = .ok ⟨⟩ t) :
    s.searchedWith env grow r = some t := by
  unfold State.searchedWith
  rw [h]

theorem State.searchedWith_ok (h : s.searchedWith env grow r = some t) :
    allocateProlog env grow r s.counted = .ok ⟨⟩ t := by
  unfold State.searchedWith at h
  split at h
  · next h' =>
    cases h
    exact h'
  · cases h

inductive Allocated (env : Env) (X : (ℕ → Prop) → State → State → Prop) (ok : ℕ → Prop)
    (r : Request) (s : State) (p : ℕ) (t : State) : Prop
  /-- the answer for 0 bytes -/
  | null {b : Book} (hb : Quiet s b) (h0 : r.userSize = 0) (hp : p = 0 ∨ p = s.nullAddr env)
      (ht : t = { s with book := b })
  | served {b : Book} {u : State} (hb : Quiet s b)
      (h : Handed env X ok (s.sizeFor env r) (s.alignFor r) r
        (State.entered env r.protectAllocList { s with book := b }) p u)
      (ht : t = (u.left env r.protectAllocList).filled r p)

/-- The stops of an allocation that do not depend on the slots. -/
structure CallStops (s : State) (r : Request) (A : Stop → Prop) : Prop where
  malloc0 : r.userSize = 0 → s.cfg.strategy r.allocator = 0 → A (.abort (.malloc0 r.site))
  alignment : r.userSize ≠ 0 → alignmentPasses (s.alignFor r) = false →
    A (.abort (.notPowerOfTwo (s.alignFor r) r.site))

theorem allocateWith_wp (ok : ℕ → Prop) (grow : M Unit) {B : Prop} (hX : Within env X)
    (hlen : ∀ t, s.searchedWith env grow r = some t → t.BacksChunk env len (s.sizeFor env r) r)
    (hok : ok (s.sizeFor env r))
    (hS : (∀ m, ok m → WholePages env m) → Served env (s.sizeFor env r) (s.alignFor r) r)
    (hL : B → r.ListLike env (s.alignFor r)) (hT : Tidy env s)
    (hB : B → Entry env ok r.protectAllocList s)
    (hgrow : r.allocator.type ≠ .internal → ∀ b, Quiet s b → ∀ b' t,
      Quiet (State.entered env r.protectAllocList { s with book := b }) b' →
        t = { State.entered env r.protectAllocList { s with book := b } with book := b' } →
          Ensures env ok grow (fun _ u => X (fun _ => False) t u) A t)
    (hA : ∀ b, Quiet s b → AllocStops env (s.sizeFor env r) (s.alignFor r) r X
      (fun t => s.searchedWith env grow r = some t) A
      (State.entered env r.protectAllocList { s with book := b }))
    (hA' : CallStops s r A) (hinit : s.allocList = 0 → A .assertion) :
    Wp (allocateWithBy env len grow r) (fun p t => Allocated env X ok r s p t)
      (fun e _ => B → A e) s := by
  unfold allocateWithBy
  refine Wp.bind_iff.mpr (Wp.get_iff.mpr (Wp.ite (fun h => Wp.bind_iff.mpr fun _ => hinit h)
    fun hne => ?_))
  refine Wp.bind_iff.mpr (modifyBook_wp.mpr ?_)
  set b : Book := { s.book with numAllocs := s.book.numAllocs + 1 } with hb
  have hq : Quiet s b := ⟨rfl, rfl, rfl, rfl⟩
  have serve := allocateServe_wp (s := { s with book := b }) hX
    (fun t ht => hlen t (State.searchedWith_of ht)) hok hS hL (hT.withBook b)
    (fun hB' => ⟨⟨(hB hB').whole, (hB hB').core.of_book, (hB hB').live⟩, (hB hB').open⟩)
    (fun ht b' hq' => hgrow ht b hq b' _ hq' rfl)
    ⟨(hA b hq).slack, fun t ht hpro => (hA b hq).serve t ht (State.searchedWith_of hpro)⟩
  have done : ∀ p t, (∃ u, Handed env X ok (s.sizeFor env r) (s.alignFor r) r
      (State.entered env r.protectAllocList { s with book := b }) p u ∧
        t = (u.left env r.protectAllocList).filled r p) → Allocated env X ok r s p t := by
    rintro p t ⟨u, hu, rfl⟩
    exact .served hq hu rfl
  refine Wp.ite (fun h0 => ?_) fun h0 => ?_
  · have hsize : s.sizeFor env r = env.pageSize := if_pos h0
    have halign : s.alignFor r = r.alignment := if_pos h0
    rw [hsize, halign] at serve
    rw [hsize, halign] at done
    split
    · next hst => exact fun _ => hA'.malloc0 h0 hst
    · exact .null hq h0 (Or.inl rfl) rfl
    · exact Wp.post serve done
    · exact .null hq h0 (Or.inr rfl) rfl
  · have halign : s.alignFor r = resolveAlignment s.tls r.alignment r.userSize := if_neg h0
    have hsize : s.sizeFor env r = internalSizeFor env (s.alignFor r) r.userSize := if_neg h0
    refine Wp.ite (fun _ => ?_) fun hn => fun _ => ?_
    · rw [hsize, halign] at serve done
      exact Wp.post serve done
    · have := hA'.alignment h0 (by rw [halign]; simpa using hn)
      rwa [halign] at this

end Whole

end Duma

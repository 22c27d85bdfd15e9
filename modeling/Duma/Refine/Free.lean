import Duma.Refine.Evict
import Duma.Refine.Slack
import Duma.Region.Tidy

/-! # Deallocation

`_duma_deallocate` finds the first slot with the given user address. It returns when that slot may
be freed and its no man's land is intact, and then the slot is released.
-/

namespace Duma

variable {env : Env} {ok : ℕ → Prop} {s s' : State} {i address : ℕ} {sl : Slot} {site : Site}
  {allocator : Allocator} {A : Stop → Prop} {p : Slot → Bool} {slots : List Slot}

section Find

theorem findSlot_some (h : findSlot p slots = some (i, sl)) :
    slots[i]? = some sl ∧ p sl = true := by
  unfold findSlot at h
  obtain ⟨j, hj, h⟩ := Option.bind_eq_some_iff.mp h
  obtain ⟨sl', hsl', h⟩ := Option.map_eq_some_iff.mp h
  cases h
  obtain ⟨hlt, hp, -⟩ := List.findIdx?_eq_some_iff_getElem.mp hj
  rw [List.getElem?_eq_getElem hlt, Option.some.injEq] at hsl'
  exact ⟨hsl' ▸ List.getElem?_eq_getElem hlt, hsl' ▸ hp⟩

theorem findSlot_none (h : findSlot p slots = none) : ∀ sl ∈ slots, p sl = false := by
  unfold findSlot at h
  cases hj : slots.findIdx? p with
  | none => exact List.findIdx?_eq_none_iff.mp hj
  | some j =>
    obtain ⟨hlt, -, -⟩ := List.findIdx?_eq_some_iff_getElem.mp hj
    rw [hj, Option.bind_some, List.getElem?_eq_getElem hlt] at h
    cases h

end Find

/-- Some slot with this user address may be freed by a deallocator of this type. -/
def State.Freeable (s : State) (address : ℕ) (type : AllocType) : Prop :=
  ∃ (i : ℕ) (sl : Slot), s.slots[i]? = some sl ∧ sl.userAddress = address ∧ ¬ sl.IsProtected ∧
    sl.allocator.type = type

inductive FreeReport (address : ℕ) (allocator : Allocator) (site : Site) : Stop → Prop
  | unknown (nearest : Option Slot) :
      FreeReport address allocator site (.abort (.freeUnknown address nearest))
  | already (sl : Slot) : FreeReport address allocator site (.abort (.alreadyFreed address sl))
  | mismatch (sl : Slot) :
      FreeReport address allocator site (.abort (.freeMismatch sl allocator site))

theorem slotForUserAddress_ensures : Ensures env ok (slotForUserAddress env address)
    (fun v t => v = findSlot (·.userAddress == address) s.slots ∧ t = s) A s := by
  refine readSlots_ensures.bind_same fun l hl => ?_
  subst hl
  exact ⟨rfl, rfl⟩

theorem slotToFree_ensures
    (hA : ¬ s.Freeable address allocator.type → ∀ e, FreeReport address allocator site e → A e)
    (h0 : address ≠ 0) :
    Ensures env ok (slotToFree env address allocator site)
      (fun v t => (s.slots[v.1]? = some v.2 ∧ v.2.userAddress = address ∧ ¬ v.2.IsProtected ∧
        v.2.allocator.type = allocator.type) ∧ t = s) A s := by
  refine slotForUserAddress_ensures.bind_same fun v hv => ?_
  subst hv
  have only : Pre env ok s → ∀ {i : ℕ} {sl : Slot}, s.slots[i]? = some sl →
      sl.userAddress = address → (sl.IsProtected ∨ sl.allocator.type ≠ allocator.type) →
      ¬ s.Freeable address allocator.type := by
    rintro hp i sl hi hu hbad ⟨j, sl', hj, hu', hnp, hty⟩
    obtain rfl := hp.ready.core.eq_of_user hi hj (hu.trans hu'.symm) (hu ▸ h0)
    rw [hi] at hj
    cases hj
    rcases hbad with h | h
    exacts [hnp h, h hty]
  cases hf : findSlot (·.userAddress == address) s.slots with
  | none =>
    refine Ensures.bind_same (P := fun _ => True) ?_ fun nearest _ => Ensures.abort fun _ => ?_
    · refine readSlots_ensures.bind_same fun l _ => ⟨trivial, rfl⟩
    · refine hA ?_ _ (.unknown _)
      rintro ⟨i, sl, hi, hu, -⟩
      have := findSlot_none hf sl (List.mem_of_getElem? hi)
      simp [hu] at this
  | some v =>
    obtain ⟨i, sl⟩ := v
    obtain ⟨hi, hu⟩ := findSlot_some hf
    have hu : sl.userAddress = address := by simpa using hu
    refine Ensures.ite (fun h => Ensures.abort fun hp => ?_) fun h => ?_
    · exact hA (only hp hi hu (Or.inl h)) _ (.already sl)
    refine Ensures.ite (fun h' => Ensures.abort fun hp => ?_) fun h' => ?_
    · exact hA (only hp hi hu (Or.inr h')) _ (.mismatch sl)
    · exact ⟨⟨hi, hu, h, not_not.mp h'⟩, rfl⟩

section FreeSlot

theorem reduceForFree_ensures {k : ℕ} (hk : k ≤ 2 ^ 54) :
    Ensures env ok (reduceForFree env k) (fun _ t => Cedes env s t) A s := by
  refine Ensures.get_bind (Ensures.ite (fun _ => ?_) fun _ => .refl)
  have hpath : ∀ {t : State}, Sweep env s t → Cedes env s t := fun h => .single (.sweep h)
  exact (reduceProtectedMemory_ensures hk).bind (fun _ _ h => Cedes.inners (hpath h.1))
    fun _ _ h => hpath h.1

theorem protectSlot_wp {B : Prop} (hi : s.slots[i]? = some sl)
    (hk : s.keepsProtected sl (kB sl.internalSize) = true)
    (hB : B → Ready env s ∧ sl.state ≠ .empty) :
    Wp (protectSlot env i sl site) (fun _ t => Release env i sl site s t) (fun e _ => B → A e) s := by
  set x : Slot := { sl with state := .allProtected } with hx
  set u := s.setPages env sl.internalAddress (sl.internalAddress + env.roundUp sl.internalSize)
    .noAccess with hu
  have ha := State.keepsProtected_allocator hk
  have hrel : ∀ b : Book, b.unUsedSlots = s.book.unUsedSlots → b.semDepth = s.book.semDepth →
      b.sumAllocatedMem = s.book.sumAllocatedMem →
      b.sumProtectedMem = s.book.sumProtectedMem + kB sl.internalSize →
      Release env i sl site s { u.putSlot i (x.freedAt site) with book := b } :=
    fun b h1 h2 h3 h4 => .guard hk b h1 h2 h3 h4
  have hopen : B → Open env u := fun hb => by
    obtain ⟨hR, hs⟩ := hB hb
    have := (hrel { s.book with sumProtectedMem := s.book.sumProtectedMem + kB sl.internalSize }
      rfl rfl rfl rfl).open hR.core hi hs (fun hL => ha hL.allocator) hR.open
    exact Open.putSlot.mp (Open.withBook.mp this)
  refine Wp.bind_iff.mpr (modifySlot_wp hi ?_ fun hO hb => absurd (hB hb).1.open hO)
  refine Wp.bind_iff.mpr (mprotect_wp (fun _ => ?_) fun hno hb => ?_)
  · refine Wp.bind_iff.mpr (modifyBook_wp.mpr ?_)
    rw [State.putSlot_setPages, ← hu]
    have hi' : (u.putSlot i x).slots[i]? = some x :=
      (State.getElem?_putSlot (s := u) hi).trans (if_pos rfl)
    refine modifySlot_wp (s := { u.putSlot i x with book := _ }) hi' ?_ fun hO hb =>
      absurd (Open.withBook.mpr (Open.putSlot.mpr (hopen hb))) hO
    rw [State.putSlot_withBook, State.putSlot_putSlot_of_state Slot.freedAt_state.symm]
    refine hrel _ ?_ ?_ ?_ ?_
    all_goals
      rw [State.putSlot_book]
      rfl
  · obtain ⟨hR, hs⟩ := hB hb
    have hr := (hR.core.slot hi).region hs
    have hm := hR.core.mprotectOk hi hs hr.dvd hr.size_dvd le_rfl le_rfl
    refine absurd ⟨hm.dvd, hm.le, fun y h1 h2 => ?_⟩ hno
    rw [State.putSlot_page]
    exact hm.mapped y h1 h2

theorem deleteSlot_wp {B : Prop} (hi : s.slots[i]? = some sl)
    (hB : B → Ready env s ∧ sl.state ≠ .empty ∧ ¬ sl.IsList s) :
    Wp (deleteSlot env i sl) (fun _ t => Release env i sl site s t) (fun e _ => B → A e) s := by
  refine Wp.bind_iff.mpr (pageDelete_wp (fun p hp' => ?_) fun hno hb => ?_)
  · refine Wp.bind_iff.mpr (modifyBook_wp.mpr ?_)
    set u := s.deleted env sl.internalAddress sl.internalSize p with hu
    have hrel : ∀ b : Book, b.unUsedSlots = Word.add s.book.unUsedSlots 1 →
        b.semDepth = s.book.semDepth →
        b.sumAllocatedMem = s.book.sumAllocatedMem - kB sl.internalSize →
        b.sumProtectedMem = s.book.sumProtectedMem →
        Release env i sl site s { u.putSlot i sl.emptied with book := b } :=
      fun b h1 h2 h3 h4 => .delete hp' b h1 h2 h3 h4
    have hopen : B → Open env u := fun hb => by
      obtain ⟨hR, hs, hl⟩ := hB hb
      have := (hrel { s.book with
        unUsedSlots := Word.add s.book.unUsedSlots 1
        sumAllocatedMem := s.book.sumAllocatedMem - kB sl.internalSize } rfl rfl rfl rfl).open
        hR.core hi hs hl hR.open
      exact Open.putSlot.mp (Open.withBook.mp this)
    refine Wp.bind_iff.mpr (modifySlot_wp (s := { u with book := _ }) hi ?_ fun hO hb =>
      absurd (Open.withBook.mpr (hopen hb)) hO)
    refine modifyBook_wp.mpr ?_
    rw [State.putSlot_withBook]
    exact hrel _ rfl rfl rfl rfl
  · obtain ⟨hR, hs, -⟩ := hB hb
    have hr := (hR.core.slot hi).region hs
    exact absurd (hR.core.mprotectOk hi hs hr.dvd hr.size_dvd le_rfl le_rfl) hno

structure Releasable (env : Env) (s : State) (sl : Slot) : Prop where
  state : sl.state = .inUse
  not_list : ¬ sl.IsList s
  access : ∀ ⦃x⦄, sl.InBlock x → s.page env x = .readWrite

theorem freeSlot_wp {B : Prop} (hi : s.slots[i]? = some sl) (hnp : ¬ sl.IsProtected)
    (hB : B → Pre env ok s ∧ Releasable env s sl)
    (hA : B → ¬ sl.Intact env s → ∀ e, SlackReport sl e → A e) :
    Wp (freeSlot env i sl site) (fun _ t => ∃ u, Cedes env s u ∧ u.slots[i]? = some sl ∧
      Release env i sl site u t) (fun e _ => B → A e) s := by
  refine Wp.bind_iff.mpr (modifyBook_wp.mpr ?_)
  set t : State := { s with book := { s.book with numDeallocs := s.book.numDeallocs + 1 } } with ht
  have hst : Cedes env s t := .single (.quiet t.book ⟨rfl, rfl, rfl, rfl⟩)
  refine Wp.seq (R := fun _ u => u = t) ?_ ?_
  · refine Wp.intro (fun _ u hr => checkSlack_same.returns hr) fun e u hr hb => ?_
    obtain ⟨hp, hrel⟩ := hB hb
    have hp' := hp.inners (Cedes.inners hst)
    obtain ⟨-, hrep, hI⟩ := (hp'.ready.checkSlack_wp (i := i) hi hrel.state).stops hr
    exact hA hb hI e hrep
  rintro _ u rfl
  have rest : Wp (do
      reduceForFree env (kB sl.internalSize)
      if (← get).keepsProtected sl (kB sl.internalSize) then protectSlot env i sl site
      else deleteSlot env i sl : M Unit)
      (fun _ t => ∃ u, Cedes env s u ∧ u.slots[i]? = some sl ∧ Release env i sl site u t)
      (fun e _ => B → A e) t := by
    refine Wp.seq (Wp.mono (reduceForFree_ensures (A := A) (kB_le _).le) (fun _ _ => id)
      fun e _ he hb => he ((hB hb).1.inners (Cedes.inners hst))) ?_
    intro _ u hu
    have hsu : Cedes env s u := hst.trans hu
    have hiu := Cedes.slot hsu hi hnp
    have hready : B → Ready env u ∧ sl.state ≠ .empty := fun hb =>
      ⟨((hB hb).1.inners (Cedes.inners hsu)).ready, by rw [(hB hb).2.state]; nofun⟩
    refine Wp.bind_iff.mpr (Wp.get_iff.mpr (Wp.ite (fun hk => ?_) fun hk => ?_))
    · exact Wp.post (protectSlot_wp hiu hk hready) fun _ v hv => ⟨u, hsu, hiu, hv⟩
    · refine Wp.post (deleteSlot_wp hiu fun hb => ⟨(hready hb).1, (hready hb).2, fun hL => ?_⟩)
        fun _ v hv => ⟨u, hsu, hiu, hv⟩
      have hbases : Bases env ok s u := Cedes.bases hsu
      obtain ⟨h1, h2⟩ := Bases.allocList hbases
      exact (hB hb).2.not_list ⟨hL.state, hL.allocator, hL.user.trans h1, hL.size.trans h2⟩
  refine Wp.bind_iff.mpr (Wp.get_iff.mpr (Wp.ite (fun _ => Wp.bind_iff.mpr ?_) fun _ => rest))
  refine touch_wp (fun _ => rest) fun hno hb => absurd (fun x h1 h2 => ?_) hno
  obtain ⟨hp, hrel⟩ := hB hb
  have hwf := hp.ready.core.slot hi
  have hr := hwf.region (by rw [hrel.state]; nofun)
  rw [(hwf.placed hrel.state).userEnd_eq hr] at h2
  exact hrel.access ⟨h1, h2⟩

end FreeSlot

/-- The slot with the address is released, after evictions. -/
inductive Freed (env : Env) (address : ℕ) (allocator : Allocator) (site : Site) (s t : State) :
    Prop
  | intro {u : State} {i : ℕ} {sl : Slot} (h : Cedes env s u) (hi : s.slots[i]? = some sl)
      (hi' : u.slots[i]? = some sl) (hu : sl.userAddress = address) (hnp : ¬ sl.IsProtected)
      (hty : sl.allocator.type = allocator.type) (hr : Release env i sl site u t)

structure FreeStops (env : Env) (address : ℕ) (allocator : Allocator) (site : Site)
    (A : Stop → Prop) (s : State) : Prop where
  slack : ∀ sl e, Overwritten env s sl → SlackReport sl e → A e
  report : ¬ s.Freeable address allocator.type → ∀ e, FreeReport address allocator site e → A e

theorem freeStages_wp {B : Prop} {β : Type} {k : Unit → M β} {Q : β → State → Prop}
    (h0 : address ≠ 0)
    (hB : B → Pre env ok s ∧ ∀ (i : ℕ) (sl : Slot), s.slots[i]? = some sl →
      sl.userAddress = address → ¬ sl.IsProtected → sl.allocator.type = allocator.type →
      Releasable env s sl)
    (hA : FreeStops env address allocator site A s)
    (hk : ∀ t, Freed env address allocator site s t → Wp (k ()) Q (fun e _ => B → A e) t) :
    Wp (do
      checkByFreq env
      let (i, sl) ← slotToFree env address allocator site
      freeSlot env i sl site
      k ()) Q (fun e _ => B → A e) s := by
  have underB : ∀ {α : Type} {m : M α} {R : α → State → Prop} {t : State}, Inners env ok s t →
      Ensures env ok m R A t → Wp m R (fun e _ => B → A e) t := fun hst h =>
    Wp.mono h (fun _ _ => id) fun _ _ he hb => he ((hB hb).1.inners hst)
  refine Wp.seq (underB .refl (checkByFreq_ensures hA.slack)) ?_
  rintro _ t ⟨b, hq, rfl⟩
  set t : State := { s with book := b } with ht
  have hst : Cedes env s t := .single (.quiet b hq)
  refine Wp.seq (underB (Cedes.inners hst) (slotToFree_ensures hA.report h0)) ?_
  rintro ⟨i, sl⟩ _ ⟨⟨hi, hu, hnp, hty⟩, rfl⟩
  have hrel : B → Releasable env s sl := fun hb => (hB hb).2 i sl hi hu hnp hty
  refine Wp.seq (freeSlot_wp (B := B) hi hnp (fun hb => ⟨(hB hb).1.inners (Cedes.inners hst), ?_⟩)
    fun hb hI e he => ?_) ?_
  · obtain ⟨h1, h2, h3⟩ := hrel hb
    exact ⟨h1, fun hL => h2 ⟨hL.state, hL.allocator, hL.user, hL.size⟩, h3⟩
  · exact hA.slack sl e ⟨⟨i, hi⟩, (hrel hb).state, hI⟩ he
  · rintro _ u ⟨v, hv, hiv, hr⟩
    exact hk u (.intro (hst.trans hv) hi hiv hu hnp hty hr)

section Lock

def State.locked (env : Env) (s : State) : State :=
  s.setDepth (if env.explicitInit ∧ ¬ s.initDone then s.book.semDepth else s.book.semDepth + 1)

def State.unlocked (env : Env) (s : State) : State :=
  s.setDepth (if env.explicitInit ∧ ¬ s.initDone then s.book.semDepth else s.book.semDepth - 1)

def State.opened (env : Env) (s : State) : State := (s.locked env).setList env .readWrite

def State.closed (env : Env) (s : State) : State := (s.setList env .noAccess).unlocked env

def State.Held (env : Env) (s : State) : Prop :=
  env.explicitInit ∧ ¬ s.initDone ∨ 0 < s.book.semDepth

theorem Core.mprotectOk_list (h : Core env s) : MprotectOk env s s.allocList s.allocListSize := by
  obtain ⟨l, sl, hl, hL, hr, hi, hd, -, hle⟩ := h.list_slot
  exact h.mprotectOk hl (by rw [hL.state]; nofun) (hi ▸ hr.dvd) hd hi.le (by omega)

theorem openAllocList_wp {B : Prop} (hB : B → Core env s) :
    Wp (openAllocList env) (fun _ t => t = s.opened env) (fun e _ => B → A e) s := by
  have hlock : Wp (getSemaphore env) (fun _ t => t = s.locked env) (fun e _ => B → A e) s := by
    refine Wp.bind_iff.mpr (Wp.get_iff.mpr (Wp.ite (fun h => ?_) fun h => ?_))
    · rw [State.locked, if_pos h]
      rfl
    · rw [State.locked, if_neg h]
      exact modifyBook_wp.mpr rfl
  refine Wp.seq hlock ?_
  rintro _ t rfl
  refine Wp.bind_iff.mpr (Wp.get_iff.mpr (mprotect_wp (fun _ => rfl) fun hno hb => ?_))
  have hc : Core env (s.locked env) := (hB hb).of_book
  exact absurd hc.mprotectOk_list hno

theorem closeAllocList_wp {B : Prop} (hB : B → Core env s ∧ s.Held env) :
    Wp (closeAllocList env) (fun _ t => t = s.closed env) (fun e _ => B → A e) s := by
  refine Wp.bind_iff.mpr (Wp.get_iff.mpr (Wp.bind_iff.mpr
    (mprotect_wp (fun _ => ?_) fun hno hb => absurd (hB hb).1.mprotectOk_list hno)))
  change Wp (releaseSemaphore env) (fun _ t => t = s.closed env) (fun e _ => B → A e)
    (s.setList env .noAccess)
  refine Wp.bind_iff.mpr (Wp.get_iff.mpr (Wp.ite (fun h => ?_) fun h => Wp.ite (fun hd hb => ?_)
    fun _ => modifyBook_wp.mpr ?_))
  · rw [State.closed, State.unlocked, if_pos h]
    rfl
  · exact absurd hd (((hB hb).2.resolve_left h).ne')
  · rw [State.closed, State.unlocked, if_neg h]
    rfl

theorem State.opened_held (s : State) : (s.opened env).Held env := by
  by_cases h : env.explicitInit ∧ ¬ s.initDone
  · exact Or.inl h
  · refine Or.inr ?_
    simp only [State.opened, State.setList, State.setPages, State.locked, State.setDepth, if_neg h]
    omega

theorem Same.held (h : Same s s') (hs : s.Held env) : s'.Held env := by
  unfold State.Held
  rw [h.initDone, h.semDepth]
  exact hs

theorem silents_opened : Silents env ok s (s.opened env) :=
  .tail (.single (.depth _)) (.list nofun)

theorem silents_closed : Silents env ok s (s.closed env) :=
  .tail (.single (.list (p := .noAccess) nofun)) (.depth _)

end Lock

/-- What holds between two calls of the program. -/
structure Resting (env : Env) (ok : ℕ → Prop) (s : State) : Prop where
  whole : ∀ n, ok n → WholePages env n
  core : Core env s
  live : Live env s

theorem Resting.calm (h : Resting env ok s) (hs : Silents env ok s s') : Calm env s s' :=
  Silents.calm h.whole h.core hs

theorem Resting.silents (h : Resting env ok s) (hs : Silents env ok s s') : Resting env ok s' :=
  ⟨h.whole, (h.calm hs).core, (h.calm hs).keeps.live h.core h.live⟩

theorem Resting.opened (h : Resting env ok s) : Pre env ok (s.opened env) := by
  have hr := h.silents silents_opened
  refine ⟨hr.whole, hr.core, fun x h1 h2 => ?_, hr.live⟩
  have hc : Core env (s.locked env) := h.core.of_book
  have := hc.setList_page (p := .readWrite) x
  rw [State.opened, this, if_pos ⟨h1, h2⟩]

section Bracket

variable {β : Type} {b : Bool}

/-- The list is opened, if the caller has not done so. -/
def State.entered (env : Env) (b : Bool) (s : State) : State := if b then s.opened env else s

def State.left (env : Env) (b : Bool) (s : State) : State := if b then s.closed env else s

/-- What a call relies on that may have to open the list. -/
structure Entry (env : Env) (ok : ℕ → Prop) (b : Bool) (s : State) : Prop extends
    Resting env ok s where
  «open» : b = false → Open env s

theorem Entry.pre (h : Entry env ok b s) : Pre env ok (s.entered env b) := by
  cases b with
  | false => exact ⟨h.whole, h.core, h.open rfl, h.live⟩
  | true => exact h.toResting.opened

theorem Pre.entry (h : Pre env ok s) : Entry env ok false s :=
  ⟨⟨h.whole, h.ready.core, h.ready.live⟩, fun _ => h.ready.open⟩

theorem silents_entered : Silents env ok s (s.entered env b) := by
  cases b with
  | false => exact .refl
  | true => exact silents_opened

theorem silents_left : Silents env ok s (s.left env b) := by
  cases b with
  | false => exact .refl
  | true => exact silents_closed

theorem enter_wp {B : Prop} {k : Unit → M β} {Q : β → State → Prop} (hB : B → Core env s)
    (hk : Wp (k ()) Q (fun e _ => B → A e) (s.entered env b)) :
    Wp (do
      if b then openAllocList env
      k ()) Q (fun e _ => B → A e) s := by
  cases b with
  | false => exact hk
  | true =>
    refine Wp.seq (openAllocList_wp hB) ?_
    rintro _ t rfl
    exact hk

theorem leave_wp {B : Prop} {k : Unit → M β} {Q : β → State → Prop}
    (hB : B → Core env s ∧ (b = true → s.Held env))
    (hk : Wp (k ()) Q (fun e _ => B → A e) (s.left env b)) :
    Wp (do
      if b then closeAllocList env
      k ()) Q (fun e _ => B → A e) s := by
  cases b with
  | false => exact hk
  | true =>
    refine Wp.seq (closeAllocList_wp fun hb => ⟨(hB hb).1, (hB hb).2 rfl⟩) ?_
    rintro _ t rfl
    exact hk

end Bracket

inductive Deallocated (env : Env) (address : ℕ) (b : Bool) (allocator : Allocator) (site : Site)
    (s t : State) : Prop
  | null (h : address = 0 ∨ address = s.nullAddr env) (ht : t = s)
  | freed {u : State} (h0 : address ≠ 0) (h : Freed env address allocator site (s.entered env b) u)
      (ht : t = u.left env b)

theorem Freed.same (h : Freed env address allocator site s s') : Same s s' := by
  obtain ⟨hc, -, -, -, -, -, hr⟩ := h
  have hb : Bases env (fun _ => False) s _ := Cedes.bases hc
  exact (Bases.same hb).trans hr.same

theorem Freed.core (h : Freed env address allocator site s s') (hc : Core env s)
    (hrel : ∀ (i : ℕ) (sl : Slot), s.slots[i]? = some sl → sl.userAddress = address →
      ¬ sl.IsProtected → sl.allocator.type = allocator.type → Releasable env s sl) :
    Core env s' := by
  obtain ⟨hcs, hi, hi', hu, hnp, hty, hr⟩ := h
  have hR := hrel _ _ hi hu hnp hty
  have hb : Bases env (fun _ => False) s _ := Cedes.bases hcs
  obtain ⟨h1, h2⟩ := Bases.allocList hb
  exact hr.core (Bases.core hb (fun _ => False.elim) hc) hi' hR.state fun hL =>
    hR.not_list ⟨hL.state, hL.allocator, hL.user.trans h1, hL.size.trans h2⟩

theorem deallocate_wp (ok : ℕ → Prop) {B : Prop} {b : Bool}
    (hB : B → Entry env ok b s ∧ ∀ (i : ℕ) (sl : Slot), s.slots[i]? = some sl →
      sl.userAddress = address → ¬ sl.IsProtected → sl.allocator.type = allocator.type →
      Releasable env (s.entered env b) sl)
    (hA : FreeStops env address allocator site A (s.entered env b))
    (hinit : s.allocList = 0 → A (.abort .freeBeforeMalloc)) :
    Wp (deallocate env address b allocator site)
      (fun _ t => Deallocated env address b allocator site s t) (fun e _ => B → A e) s := by
  unfold deallocate
  refine Wp.bind_iff.mpr (Wp.get_iff.mpr ?_)
  refine Wp.ite (fun h => Wp.bind_iff.mpr fun _ => hinit h) fun h => ?_
  refine Wp.ite (fun hnull => .null hnull rfl) fun hnull => ?_
  have h0 : address ≠ 0 := fun h => hnull (Or.inl h)
  refine enter_wp (k := fun _ => do
    checkByFreq env
    let (i, sl) ← slotToFree env address allocator site
    freeSlot env i sl site
    if b then closeAllocList env) (fun hb => (hB hb).1.core) ?_
  have hslots : (s.entered env b).slots = s.slots := by cases b <;> rfl
  have hrel : B → ∀ (i : ℕ) (sl : Slot), (s.entered env b).slots[i]? = some sl →
      sl.userAddress = address → ¬ sl.IsProtected → sl.allocator.type = allocator.type →
      Releasable env (s.entered env b) sl := fun hb i sl hi => (hB hb).2 i sl (hslots ▸ hi)
  refine freeStages_wp (k := fun _ => if b then closeAllocList env else pure ()) h0
    (fun hb => ⟨(hB hb).1.pre, hrel hb⟩) hA fun u hu => ?_
  cases b with
  | false => exact .freed h0 hu rfl
  | true =>
    refine Wp.mono (closeAllocList_wp (B := B) fun hb => ⟨?_, hu.same.held (State.opened_held s)⟩)
      ?_ fun _ _ => id
    · exact hu.core (hB hb).1.pre.ready.core (hrel hb)
    · rintro _ t rfl
      exact .freed h0 hu rfl

end Duma

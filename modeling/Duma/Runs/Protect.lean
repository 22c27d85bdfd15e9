import Duma.Runs.Counters
import Duma.Runs.Eviction
import Duma.Refine.Ticks
import Duma.Runs.Accept

/-! # Freed blocks under a limit

A freed block stays protected when the memory that is protected already leaves room for it under
`PROTECT_FREE`. An eviction that makes room is tried only if that memory is as large as the block.
-/

namespace Duma

variable {env : Env} {settings : Settings} {s t u : State} {w : World} {c : Call} {sl : Slot}
  {site : Site} {allocator : Allocator} {i k n p ptr : ℕ} {limit : ℤ} {works : Config → Prop}

section Sums

/-- An eviction that the protected memory suffices for is booked with what was asked for at least,
and one for which it does not is not booked at all. -/
theorem reduceProtectedMemory_sums (hg : s.PageGranular env) (h1 : 1 ≤ n) (h2 : n ≤ 2 ^ 54) :
    Post (reduceProtectedMemory env n) (fun _ t =>
      if n ≤ s.protectedkB then t.book.sumProtectedMem + n ≤ s.book.sumProtectedMem
      else t.book.sumProtectedMem = s.book.sumProtectedMem) s := by
  refine Wp.bind_iff.mpr (Wp.get_iff.mpr ?_)
  have hbegin := reduceToBegin_ended hg hg.total (.refl _ s) (Nat.zero_add _) (Nat.zero_add _) h1
  have hrun : Ensures env (fun _ => False) (reduceToBegin env n s.slots.length 0 0)
      (Reduced env n 0 0 .allProtected s) (fun _ => True) s :=
    reduceToBegin_ensures h2 _ 0 0 h1 (Nat.zero_add _)
  refine Wp.seq ((hbegin.and hrun).mono (fun _ _ => id) fun _ _ _ => trivial) ?_
  rintro ⟨a, done⟩ u ⟨⟨i, hi, hu, ha, hend⟩, hr⟩
  have hsum := (Evicts.sums hr.evicts).2.1
  refine Wp.ite (fun hd => ?_) fun hd => ?_
  · subst hd
    have hle : n ≤ a := hend
    refine Wp.bind_iff.mpr (modifyBook_wp.mpr ?_)
    have hT : n ≤ s.protectedkB := by
      dsimp only at ha
      omega
    change if n ≤ s.protectedkB then u.book.sumProtectedMem - a + n ≤ _ else _
    rw [if_pos hT, hsum]
    omega
  · obtain rfl : done = false := by simpa using hd
    obtain ⟨ha', rfl⟩ : a < n ∧ i = s.slots.length := hend
    have hlen : 0 + s.slots.length = u.slots.length := by rw [hu.length, Nat.zero_add]
    have hempty := reduceToEmpty_ended (hu.granular hg) hg.total (.refl _ u) hlen ha ha'
    have hrun : Ensures env (fun _ => False) (reduceToEmpty env n s.slots.length 0 a)
        (Reduced env n 0 a .beginProtected u) (fun _ => True) u :=
      reduceToEmpty_ensures h2 _ 0 a ha' hlen
    refine Wp.seq ((hempty.and hrun).mono (fun _ _ => id) fun _ _ _ => trivial) ?_
    rintro ⟨b, done⟩ t ⟨⟨m, hm, ht, hb, hend⟩, hr'⟩
    have hsum' := (Evicts.sums hr'.evicts).2.1
    refine Wp.ite (fun hd => ?_) fun hd => ?_
    · subst hd
      have hle : n ≤ b := hend
      refine Wp.bind_iff.mpr (modifyBook_wp.mpr ?_)
      have hT : n ≤ s.protectedkB := by
        dsimp only at hb
        omega
      change if n ≤ s.protectedkB then t.book.sumProtectedMem - b + n ≤ _ else _
      rw [if_pos hT, hsum', hsum]
      omega
    · obtain rfl : done = false := by simpa using hd
      obtain ⟨hb', rfl⟩ : b < n ∧ m = u.slots.length := hend
      have hzero := State.protectedkB_eq_zero (ht.emptied hu.shrunk)
      have hT : ¬ n ≤ s.protectedkB := by
        dsimp only at hb
        omega
      refine Wp.bind_iff.mpr (Wp.modify_iff.mpr ?_)
      change if n ≤ s.protectedkB then _ else t.book.sumProtectedMem = _
      rw [if_neg hT, hsum', hsum]

/-- There is room for `n` kB of protected memory, or an eviction is tried and makes it. -/
def State.Affords (s : State) (limit : ℤ) (n : ℕ) : Prop :=
  s.book.sumProtectedMem + n ≤ limit ∨ (n : ℤ) ≤ s.book.sumProtectedMem ∧ n ≤ s.protectedkB

theorem reduceForFree_affords (hg : s.PageGranular env) (hl : s.cfg.protectFree = limit)
    (h0 : 0 < limit) (hs : s.book.sumProtectedMem ≤ limit) (h1 : 1 ≤ n) (h2 : n ≤ 2 ^ 54)
    (hlt : (n : ℤ) < limit) : Post (reduceForFree env n) (fun _ t =>
      t.book.sumProtectedMem + n ≤ limit ↔ s.Affords limit n) s := by
  unfold State.Affords
  refine Wp.bind_iff.mpr (Wp.get_iff.mpr (Wp.ite (fun h => ?_) fun h => ?_))
  · refine Wp.seq (reduceProtectedMemory_sums hg h1 h2) fun _ t ht => ?_
    rw [hl] at h
    change t.book.sumProtectedMem + n ≤ limit ↔ _
    split at ht <;> omega
  · rw [hl] at h
    change s.book.sumProtectedMem + n ≤ limit ↔ _
    omega

end Sums

section Slots

/-- The slot at index `k` protects the memory of the block that `sl` held. -/
structure State.Protects (s : State) (k : ℕ) (sl : Slot) : Prop where
  slot : ∃ new, s.slots[k]? = some new ∧ new.state = .allProtected ∧
    new.userAddress = sl.userAddress ∧ new.internalAddress = sl.internalAddress ∧
    new.internalSize = sl.internalSize

/-- The block that `sl` held is protected, or its slot is empty. -/
def State.Settled (s : State) (k : ℕ) (sl : Slot) (a : Prop) : Prop :=
  a ∧ s.Protects k sl ∨ ¬ a ∧ s.slots[k]? = some sl.emptied

theorem State.Settled.iff {a : Prop} (h : s.Settled k sl a) : s.Protects k sl ↔ a := by
  rcases h with ⟨ha, hp⟩ | ⟨ha, he⟩
  · exact iff_of_true hp ha
  · refine iff_of_false ?_ ha
    rintro ⟨new, hn, hs, -⟩
    rw [he] at hn
    obtain rfl := Option.some.inj hn
    cases hs

theorem State.Settled.congr {a b : Prop} (h : s.Settled k sl a) (hs : t.slots = s.slots)
    (hab : a ↔ b) : t.Settled k sl b := by
  rcases h with ⟨ha, ⟨new, hn, hrest⟩⟩ | ⟨ha, he⟩
  · exact Or.inl ⟨hab.mp ha, ⟨new, by rw [hs]; exact hn, hrest⟩⟩
  · exact Or.inr ⟨fun hb => ha (hab.mpr hb), by rw [hs]; exact he⟩

theorem modifySlot_slot {f : Slot → Slot} (hk : s.slots[k]? = some sl) :
    Post (modifySlot env k f) (fun _ t => t.slots[k]? = some (f sl)) s :=
  modifySlot_wp hk ((State.getElem?_putSlot hk).trans (if_pos rfl)) fun _ => trivial

theorem protectSlot_protects (hk : s.slots[k]? = some sl) :
    Post (protectSlot env k sl site) (fun _ t => t.Protects k sl) s := by
  refine Wp.seq (modifySlot_slot hk) fun _ t ht => Wp.seq mprotect_post ?_
  rintro _ u rfl
  refine Wp.seq (R := fun _ u => u.slots[k]? = some { sl with state := .allProtected })
    (modifyBook_wp.mpr ht) fun _ u hu => (modifySlot_slot hu).post fun _ v hv => ?_
  obtain ⟨src, f, n, he⟩ := Slot.freedAt_eq { sl with state := .allProtected } site
  refine ⟨_, hv, ?_⟩
  rw [he]
  exact ⟨rfl, rfl, rfl, rfl⟩

theorem pageDelete_slots {a : ℕ} : Post (pageDelete env a n) (fun _ t => t.slots = s.slots) s := by
  refine Wp.bind_iff.mpr (Wp.bind_iff.mpr (Wp.get_iff.mpr (Wp.bind_iff.mpr ?_)))
  refine Wp.ite (fun _ => rfl) fun _ => Wp.seq mprotect_post ?_
  rintro _ _ rfl
  rfl

theorem deleteSlot_empties (hk : s.slots[k]? = some sl) :
    Post (deleteSlot env k sl) (fun _ t => t.slots[k]? = some sl.emptied) s := by
  refine Wp.seq pageDelete_slots fun _ t ht => ?_
  refine Wp.seq (R := fun _ u => u.slots[k]? = some sl)
    (modifyBook_wp.mpr (show t.slots[k]? = some sl by rw [ht, hk])) fun _ u hu => ?_
  exact Wp.seq (modifySlot_slot hu) fun _ v hv => modifyBook_wp.mpr hv

end Slots

section Deallocate

theorem Env.dvd_pageSize_of_ge : 1024 ∣ env.pageSize :=
  Word.two_pow_dvd ⟨10, rfl⟩ env.pageSize_pow env.pageSize_ge

/-- The protected memory is booked within the limit. -/
structure State.Within (s : State) (limit : ℤ) : Prop where
  pos : 0 < limit
  cfg : s.cfg.protectFree = limit
  le : s.book.sumProtectedMem ≤ limit

theorem freeSlot_settled (hc : Core env s) (hs : s.Within limit) (hk : s.slots[k]? = some sl)
    (hu : sl.IsUser) (hlt : (kB sl.internalSize : ℤ) < limit) :
    Post (freeSlot env k sl site)
      (fun _ t => t.Settled k sl (s.Affords limit (kB sl.internalSize))) s := by
  have hr := (hc.slot hk).region (by rw [hu.1]; nofun)
  have hnp : ¬ sl.IsProtected := by
    rintro (hp | hp) <;> rw [hu.1] at hp <;> cases hp
  have hal : sl.allocator ≠ .intAlloc := fun ha => hu.2 (by rw [ha]; rfl)
  have h1 : 1 ≤ kB sl.internalSize := by
    have := hr.kB_eq Env.dvd_pageSize_of_ge
    have := hr.size_pos
    omega
  refine Wp.bind_iff.mpr (modifyBook_wp.mpr ?_)
  set t : State := { s with book := { s.book with numDeallocs := s.book.numDeallocs + 1 } } with ht
  have hg : t.PageGranular env := Core.pageGranular hc.of_book Env.dvd_pageSize_of_ge
  refine Wp.seq (R := fun _ u => u = t) (checkSlack_same.mono (fun _ _ => id) fun _ _ _ => trivial) ?_
  rintro _ _ rfl
  have rest : Post (do
      reduceForFree env (kB sl.internalSize)
      if (← get).keepsProtected sl (kB sl.internalSize) then protectSlot env k sl site
      else deleteSlot env k sl : M Unit)
      (fun _ v => v.Settled k sl (s.Affords limit (kB sl.internalSize))) t := by
    have hcede : Post (reduceForFree env (kB sl.internalSize)) (fun _ u => Cedes env t u) t :=
      Wp.mono (@reduceForFree_ensures env (fun _ => False) t (fun _ => True) _ (kB_le _).le)
        (fun _ _ => id) fun _ _ _ => trivial
    refine Wp.seq ((hcede.and (reduceForFree_affords hg hs.cfg hs.pos hs.le h1 (kB_le _).le hlt)).mono
      (fun _ _ => id) fun _ _ _ => trivial) ?_
    rintro _ u ⟨hu, hiff⟩
    have hku : u.slots[k]? = some sl := Cedes.slot hu hk hnp
    have hcfg : u.cfg.protectFree = limit := by
      have hb : Bases env (fun _ => False) t u := Cedes.bases hu
      rw [(Bases.same hb).cfg]
      exact hs.cfg
    have hkeep : u.keepsProtected sl (kB sl.internalSize) = true ↔
        s.Affords limit (kB sl.internalSize) := by
      refine Iff.trans ?_ hiff
      have := hs.pos
      simp only [State.keepsProtected, hcfg, Bool.and_eq_true, bne_iff_ne, decide_eq_true_eq]
      constructor
      · rintro ⟨-, h⟩
        omega
      · intro h
        exact ⟨hal, Or.inr ⟨this, h⟩⟩
    refine Wp.bind_iff.mpr (Wp.get_iff.mpr (Wp.ite (fun h => ?_) fun h => ?_))
    · exact (protectSlot_protects hku).post fun _ _ hv => Or.inl ⟨hkeep.mp h, hv⟩
    · exact (deleteSlot_empties hku).post fun _ _ hv => Or.inr ⟨fun ha => h (hkeep.mpr ha), hv⟩
  refine Wp.bind_iff.mpr (Wp.get_iff.mpr (Wp.ite (fun _ => Wp.bind_iff.mpr ?_) fun _ => rest))
  exact touch_wp (fun _ => rest) fun _ => trivial

theorem State.Affords.congr (hb : t.book.sumProtectedMem = s.book.sumProtectedMem)
    (hs : t.slots = s.slots) : t.Affords limit n ↔ s.Affords limit n := by
  unfold State.Affords State.protectedkB State.totalkB
  rw [hb, hs]

/-- The release of a block of the program protects it or empties its slot. -/
theorem deallocate_settled {b : Bool} (hc : Core env s) (hs : s.Within limit)
    (hk : s.slots[k]? = some sl) (hu : sl.IsUser) (hlt : (kB sl.internalSize : ℤ) < limit) :
    Post (deallocate env sl.userAddress b allocator site)
      (fun _ t => t.Settled k sl (s.Affords limit (kB sl.internalSize))) s := by
  obtain ⟨h0, hnull⟩ := hc.userAddress_ne hk hu
  refine Wp.bind_iff.mpr (Wp.get_iff.mpr (Wp.ite (fun _ => Wp.bind_iff.mpr trivial) fun _ => ?_))
  refine Wp.ite (fun h => (h.elim h0 hnull).elim) fun _ => ?_
  have rest : ∀ {f : Unit → M Unit} (e : State), Core env e → e.cfg = s.cfg →
      e.book.sumProtectedMem = s.book.sumProtectedMem → e.slots = s.slots →
      (∀ t, Post (f ()) (fun _ v => v.slots = t.slots) t) → Post (do
        checkByFreq env
        let v ← slotToFree env sl.userAddress allocator site
        freeSlot env v.1 v.2 site
        f ()) (fun _ t => t.Settled k sl (s.Affords limit (kB sl.internalSize))) e := by
    intro f e hce hcfg hsum hslots hf
    refine Wp.seq checkByFreq_post ?_
    rintro _ _ ⟨-, b, hq, rfl⟩
    set e' : State := { e with book := b } with he'
    have hke : e'.slots[k]? = some sl := (congrArg (·[k]?) hslots).trans hk
    have hsum' : e'.book.sumProtectedMem = s.book.sumProtectedMem := hq.protected.trans hsum
    have hwithin : e'.Within limit := ⟨hs.pos, (congrArg Config.protectFree hcfg).trans hs.cfg,
      hsum'.le.trans hs.le⟩
    refine Wp.seq (R := fun v t => v = (k, sl) ∧ t = e') ?_ ?_
    · refine Wp.seq slotForUserAddress_post ?_
      rintro v _ ⟨rfl, rfl⟩
      rw [hce.of_book.findSlot_eq hke h0]
      exact Wp.ite (fun _ => trivial) fun _ => Wp.ite (fun _ => trivial) fun _ => ⟨rfl, rfl⟩
    · rintro _ _ ⟨rfl, rfl⟩
      refine Wp.seq (freeSlot_settled hce.of_book hwithin hke hu hlt) fun _ t ht => ?_
      exact (hf t).post fun _ v hv => ht.congr hv (State.Affords.congr hsum' hslots)
  cases b with
  | false => exact rest (f := fun _ => pure ()) s hc rfl rfl rfl fun _ => rfl
  | true =>
    refine Wp.seq openAllocList_post ?_
    rintro _ _ rfl
    refine rest (f := fun _ => closeAllocList env) _ ?_ rfl rfl rfl fun t => ?_
    · exact (Silents.calm (fun _ => False.elim) hc
        (silents_opened : Silents env (fun _ => False) s _)).core
    · refine closeAllocList_post.post ?_
      rintro _ _ rfl
      rfl

end Deallocate

section Calls

theorem Acts.sumProtected_le (hw : ∀ cfg, works cfg → cfg.protectFree = limit) (h0 : 0 < limit)
    (h : Safe env s) (hle : s.book.sumProtectedMem ≤ limit)
    (ha : Acts env works (Served env) s t) : Safe env t ∧ t.book.sumProtectedMem ≤ limit := by
  induction ha with
  | refl => exact ⟨h, hle⟩
  | tail _ ha ih =>
    exact ⟨ha.safe (fun _ _ _ => id) ih.1, ha.sumProtected_le (fun _ _ _ => id) hw h0 ih.1 ih.2⟩

/-- A call made in `s` releases the block at `p`, and comes to it in the state `u`: a `realloc` that
moves the block allocates the new one first. -/
inductive Call.Releases (env : Env) (s : State) : Call → ℕ → State → Prop
  | free (p : ℕ) (site : Site) : Releases env s (.free p site) p s
  | delete (p : ℕ) (allocator : Allocator) (site : Site) :
      Releases env s (.delete p allocator site) p s
  | drop (p : ℕ) (site : Site) : Releases env s (.realloc p 0 site) p s
  | move {n q : ℕ} {u : State} (p : ℕ) (site : Site) (hp : p ≠ 0) (hn : n ≠ 0)
      (ha : allocate env (s.tls.reallocRequest n site) (s.opened env) = .ok q u) (hq : q ≠ 0) :
      Releases env s (.realloc p n site) p u

theorem reallocCopy_settled {q : ℕ}
    (ha : allocate env (s.tls.reallocRequest n site) s = .ok q u) (hq : q ≠ 0)
    (hsafe : Safe env u) (hs : u.Within limit) (hk : u.slots[k]? = some sl) (hu : sl.IsUser)
    (hlt : (kB sl.internalSize : ℤ) < limit) :
    Post (reallocCopy env sl.userAddress n site)
      (fun _ t => t.Settled k sl (u.Affords limit (kB sl.internalSize))) s := by
  refine Wp.bind_iff.mpr (Wp.get_iff.mpr (Wp.bind_iff.mpr (Wp.of_ok ha ?_)))
  refine Wp.ite (fun h => absurd h hq) fun _ => Wp.seq slotForUserAddress_post ?_
  rintro _ _ ⟨rfl, rfl⟩
  rename_i u
  cases findSlot (·.userAddress == sl.userAddress) u.slots with
  | none => exact trivial
  | some f =>
    obtain ⟨i, old⟩ := f
    have finish : ∀ x, x = u.copied q sl.userAddress old.userSize n → Post (do
        deallocate env sl.userAddress false .realloc site
        pure q) (fun _ t => t.Settled k sl (u.Affords limit (kB sl.internalSize))) x := by
      rintro _ rfl
      have hbook : (u.copied q sl.userAddress old.userSize n).book = u.book := by
        unfold State.copied
        split <;> rfl
      have hwithin : (u.copied q sl.userAddress old.userSize n).Within limit :=
        ⟨hs.pos, by rw [State.copied_cfg]; exact hs.cfg, by rw [hbook]; exact hs.le⟩
      refine Wp.seq (deallocate_settled hsafe.copied.core hwithin
        (by rw [State.copied_slots]; exact hk) hu hlt) fun _ t ht => ?_
      exact ht.congr rfl (State.Affords.congr (by rw [hbook]) State.copied_slots)
    refine Wp.ite (fun h => Wp.seq memcpy_post ?_) fun h => Wp.seq memcpy_post ?_
    · rintro _ _ ⟨rfl, -⟩
      refine Wp.seq storeRange_post ?_
      rintro _ _ rfl
      exact finish _ (by rw [State.copied, if_pos h])
    · rintro _ _ ⟨rfl, -⟩
      exact finish _ (by rw [State.copied, if_neg h])

theorem Call.Releases.settled (hf : c.Releases env s p u) (hT : Tidy env s)
    (hsafe : Safe env u) (hs : u.Within limit) (hk : u.slots[k]? = some sl) (hu : sl.IsUser)
    (hp : sl.userAddress = p) (hlt : (kB sl.internalSize : ℤ) < limit) :
    Post (c.exec env settings)
      (fun _ t => t.Settled k sl (u.Affords limit (kB sl.internalSize))) s := by
  have h0 := (hsafe.core.userAddress_ne hk hu).1
  have close : ∀ (q : ℕ) {a : Prop} {t : State}, t.Settled k sl a → Post (do
      closeAllocList env
      pure q) (fun _ t => t.Settled k sl a) t := by
    intro q a t ht
    refine Wp.seq closeAllocList_post ?_
    rintro _ _ rfl
    exact ht.congr rfl Iff.rfl
  cases hf with
  | free p site =>
    subst hp
    exact Wp.seq (demand_post hT (deallocate_settled hsafe.core hs hk hu hlt)) fun _ _ ht => ht
  | delete p allocator site =>
    subst hp
    exact Wp.seq (deallocate_settled hsafe.core hs hk hu hlt) fun _ _ ht => ht
  | drop p site =>
    subst hp
    refine demand_post hT (Wp.seq openAllocList_post ?_)
    rintro _ _ rfl
    refine Wp.ite (fun h => absurd h h0) fun _ => Wp.ite (fun _ => ?_) fun h => absurd rfl h
    have hopen := (Silents.calm (fun _ => False.elim) hsafe.core
      (silents_opened : Silents env (fun _ => False) s _)).core
    have hwithin : (s.opened env).Within limit := ⟨hs.pos, hs.cfg, hs.le⟩
    exact Wp.seq (deallocate_settled hopen hwithin hk hu hlt) fun _ _ ht => close 0 ht
  | @move n q u p site hp0 hn ha hq =>
    subst hp
    refine demand_post hT (Wp.seq openAllocList_post ?_)
    rintro _ _ rfl
    refine Wp.ite (fun h => absurd h h0) fun _ => Wp.ite (fun h => absurd h hn) fun _ => ?_
    exact Wp.seq (reallocCopy_settled ha hq hsafe hs hk hu hlt) fun p _ ht => close p ht

theorem Call.Releases.within (hf : c.Releases env s p u) (h : Safe env s) (hs : s.Within limit)
    (hc : c.Proper env s) : Safe env u ∧ u.Within limit := by
  cases hf with
  | free | delete | drop => exact ⟨h, hs⟩
  | @move n q u p site hp0 hn ha hq =>
    have hr : (Call.realloc p n site).request env s = some (s.tls.reallocRequest n site) := by
      simp only [Call.request, if_neg hp0, if_neg hn]
    have huser : (s.tls.reallocRequest n site).allocator.type ≠ .internal :=
      show AllocType.malloc ≠ .internal by decide
    have hso := h.silents (fun _ => False.elim)
      (silents_opened : Silents env (fun _ => False) s (s.opened env))
    have hserved := (allocate_post huser hso.tidy).returns ha
    have hS : (s.opened env).Serves env (Served env) (s.tls.reallocRequest n site) :=
      (hc.request _ hr).serves
    have hacts : Acts env (fun cfg => cfg.protectFree = limit) (Served env) (s.opened env) u :=
      hserved.acts hs.cfg hS huser
    obtain ⟨hu, hle⟩ := Acts.sumProtected_le (fun _ => id) hs.pos hso hs.le hacts
    exact ⟨hu, hs.pos, (congrArg Config.protectFree hserved.cfg).trans hs.cfg, hle⟩

/-- A freed block that is smaller than the limit stays protected if and only if there is room for it
already, or it is no larger than what is booked as protected and than what is protected. -/
theorem freed_protected_iff (h0 : 0 < limit) (hset : settings.Proper env)
    (hl : env.explicitInit = false → settings.cfg.protectFree = limit)
    (hw : LimitedRun env settings limit w) (hc : c.Proper env w.st)
    (hlim : (c.start w.st).cfg.protectFree = limit) (he : c.exec env settings w.st = .ok ptr t)
    (hf : c.Releases env w.st p u) (hk : u.slots[k]? = some sl) (hu : sl.IsUser)
    (hp : sl.userAddress = p) (hlt : (kB sl.internalSize : ℤ) < limit) :
    (t.Protects k sl ∧ ∀ x, sl.Owns x → t.page env x ≠ .unmapped) ↔
      u.book.sumProtectedMem + kB sl.internalSize ≤ limit ∨
        (kB sl.internalSize : ℤ) ≤ u.book.sumProtectedMem ∧ kB sl.internalSize ≤ u.protectedkB := by
  obtain ⟨hsafe, hle⟩ := hw.booked h0 hset hl
  have hcfg : w.st.cfg.protectFree = limit := by cases hf <;> exact hlim
  obtain ⟨hsu, hs⟩ := hf.within hsafe ⟨h0, hcfg, hle⟩ hc
  have hiff := ((hf.settled hsafe.tidy hsu hs hk hu hp hlt).returns he).iff
  refine Iff.trans ⟨fun h => h.1, fun h => ⟨h, fun x hx => ?_⟩⟩ hiff
  have hnext : LimitedRun env settings limit ⟨w.heapAfter env c ptr t, t⟩ :=
    hw.step ⟨hc, hlim⟩ (.intro he)
  have hcore := (hnext.booked h0 hset hl).1.core
  obtain ⟨new, hn, -, -, ha, hi⟩ := h
  have hown : new.Owns x := by
    unfold Slot.Owns at hx ⊢
    rw [ha, hi]
    exact hx
  exact hcore.mapped (hcore.held_of_owns (hcore.owns hn hown))

theorem exists_limited (settings : Settings) (calls : List Call) (c : Call)
    (p : World → ℕ → State → Bool) (h : (runAll Env.sample settings (fun w c =>
      decide (c.Proper Env.sample w.st ∧ (c.start w.st).cfg.protectFree = limit)) calls).any (fun w =>
      c.ends Env.sample settings w.st (p w)) = true) :
    ∃ w ptr t, LimitedRun Env.sample settings limit w ∧
      c.exec Env.sample settings w.st = .ok ptr t ∧ p w ptr t = true := by
  obtain ⟨w, hw, hp⟩ := exists_reach (fun _ _ => of_decide_eq_true) h
  unfold Call.ends at hp
  split at hp
  · next ptr t he => exact ⟨w, ptr, t, hw, he, hp⟩
  · cases hp

theorem Call.proper_free {site : Site} : (Call.free p site).Proper env s where
  «public» := trivial
  request _ h := absurd h (Option.not_mem_none _)
  init _ h := absurd h (Option.not_mem_none _)

theorem freed_protected_iff_sample : ∃ w ptr t sl,
    LimitedRun Env.sample (Settings.sample 6 (-1)) 6 w ∧
    (Call.free 33557568 Site.unknown).exec Env.sample (Settings.sample 6 (-1)) w.st = .ok ptr t ∧
    w.st.slots[2]? = some sl ∧
    ((t.Protects 2 sl ∧ ∀ x, sl.Owns x → t.page Env.sample x ≠ .unmapped) ↔
      w.st.book.sumProtectedMem + kB sl.internalSize ≤ 6 ∨
        (kB sl.internalSize : ℤ) ≤ w.st.book.sumProtectedMem ∧
          kB sl.internalSize ≤ w.st.protectedkB) := by
  obtain ⟨w, ptr, t, hw, he, hp⟩ := @exists_limited 6 (Settings.sample 6 (-1))
    [.malloc 3000 Site.unknown] (.free 33557568 Site.unknown) (fun w _ _ =>
      (w.st.slots[2]?).any fun (sl : Slot) => decide (sl.IsUser ∧ sl.userAddress = 33557568 ∧
        (kB sl.internalSize : ℤ) < 6) && decide (w.st.cfg.protectFree = 6)) (by decide +kernel)
  obtain ⟨sl, hk, hd⟩ := (Option.any_eq_true _ _).mp hp
  obtain ⟨hd, hlim⟩ := (Bool.and_eq_true _ _ ▸ hd : _ ∧ _)
  obtain ⟨hu, ha, hlt⟩ := of_decide_eq_true hd
  have hlim : ((Call.free 33557568 Site.unknown).start w.st).cfg.protectFree = 6 :=
    of_decide_eq_true hlim
  exact ⟨w, ptr, t, sl, hw, he, hk, freed_protected_iff (by decide) (Settings.sample_proper _ _)
    (fun _ => rfl) hw Call.proper_free hlim he (.free _ _) hk hu ha hlt⟩

/-- With a limit of 5 kB, 2 kB of which are taken, a freed block of 4 kB is deleted. -/
theorem freed_protected_fails : ¬ ∀ (env : Env) (settings : Settings) (limit : ℤ) (w : World)
    (p k : ℕ) (site : Site) (ptr : ℕ) (t : State) (sl : Slot), 0 < limit → settings.Proper env →
    settings.cfg.protectFree = limit → LimitedRun env settings limit w →
    (Call.free p site).exec env settings w.st = .ok ptr t → w.st.slots[k]? = some sl → sl.IsUser →
    sl.userAddress = p → (kB sl.internalSize : ℤ) < limit →
      ∃ new, t.slots[k]? = some new ∧ new.state = .allProtected := by
  intro h
  obtain ⟨w, ptr, t, hw, he, hp⟩ := @exists_limited 5 (Settings.sample 5 (-1))
    [.malloc 3000 Site.unknown] (.free 33557568 Site.unknown) (fun w _ t =>
      ((w.st.slots[2]?).any fun (sl : Slot) => decide (sl.IsUser ∧ sl.userAddress = 33557568 ∧
        (kB sl.internalSize : ℤ) < 5)) && (t.slots[2]?).all fun (new : Slot) =>
          decide (new.state ≠ .allProtected)) (by decide +kernel)
  obtain ⟨hp, hn⟩ := (Bool.and_eq_true _ _ ▸ hp : _ ∧ _)
  obtain ⟨sl, hk, hd⟩ := (Option.any_eq_true _ _).mp hp
  obtain ⟨hu, ha, hlt⟩ := of_decide_eq_true hd
  obtain ⟨new, hnew, hs⟩ := h _ _ 5 w _ 2 _ ptr t sl (by decide) (Settings.sample_proper _ _) rfl hw he
    hk hu ha hlt
  rw [hnew] at hn
  exact absurd hs (of_decide_eq_true hn)

end Calls

end Duma

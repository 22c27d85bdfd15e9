import Duma.Runs.Accept

/-! # Pointers that a deallocator accepts

Where no no man's land was overwritten a deallocator returns just for the pointers that stand for no
block and for the blocks that an allocator of its kind has handed out. It stops at any other address
with a report of what the slot list says about it.
-/

namespace Duma

variable {env : Env} {ok : ℕ → Prop} {settings : Settings} {s t u : State} {w : World} {b : Block}
  {i k p : ℕ} {v : Bool} {sl : Slot} {e : Stop} {allocator : Allocator} {site : Site}

/-- What is reported of an address that is not freed: that no slot has it, that its memory is
protected already, or that another allocator has handed it out. -/
inductive FreeRejects (s : State) (p : ℕ) (allocator : Allocator) (site : Site) : Stop → Prop
  | unknown (h : ∀ (k : ℕ) (sl : Slot), s.slots[k]? = some sl → sl.userAddress ≠ p)
      (nearest : Option Slot) : FreeRejects s p allocator site (.abort (.freeUnknown p nearest))
  | already {k : ℕ} {sl : Slot} (hk : s.slots[k]? = some sl) (hu : sl.userAddress = p)
      (hp : sl.IsProtected) : FreeRejects s p allocator site (.abort (.alreadyFreed p sl))
  | mismatch {k : ℕ} {sl : Slot} (hk : s.slots[k]? = some sl) (hu : sl.userAddress = p)
      (hp : ¬ sl.IsProtected) (ht : sl.allocator.type ≠ allocator.type) :
      FreeRejects s p allocator site (.abort (.freeMismatch sl allocator site))

theorem slotToFree_rejects : Ensures env ok (slotToFree env p allocator site)
    (fun v t => (s.slots[v.1]? = some v.2 ∧ v.2.userAddress = p ∧ ¬ v.2.IsProtected ∧
      v.2.allocator.type = allocator.type) ∧ t = s) (FreeRejects s p allocator site) s := by
  refine slotForUserAddress_ensures.bind_same fun v hv => ?_
  subst hv
  cases hf : findSlot (·.userAddress == p) s.slots with
  | none =>
    refine Ensures.bind_same (P := fun _ => True) ?_ fun nearest _ =>
      Ensures.abort fun _ => .unknown (fun k sl hk hu => ?_) _
    · refine readSlots_ensures.bind_same fun l _ => ⟨trivial, rfl⟩
    · have := findSlot_none hf sl (List.mem_of_getElem? hk)
      simp [hu] at this
  | some v =>
    obtain ⟨i, sl⟩ := v
    obtain ⟨hi, hu⟩ := findSlot_some hf
    have hu : sl.userAddress = p := by simpa using hu
    refine Ensures.ite (fun h => Ensures.abort fun _ => .already hi hu h) fun h => ?_
    refine Ensures.ite (fun h' => Ensures.abort fun _ => .mismatch hi hu h h') fun h' => ?_
    exact ⟨⟨hi, hu, h, not_not.mp h'⟩, rfl⟩

section Deallocate

variable (h : Safe env s)
include h

theorem Safe.opened : Safe env (s.opened env) ∧ Ready env (s.opened env) :=
  ⟨h.silents (fun _ => False.elim) (silents_opened : Silents env (fun _ => False) s _),
    (Resting.opened (⟨fun _ => False.elim, h.core, h.live⟩ :
      Resting env (fun _ => False) s)).ready⟩

theorem Safe.open_returns : Wp (openAllocList env) (fun _ t => t = s.opened env)
    (fun _ _ => False) s :=
  Wp.mono (openAllocList_wp (B := True) (A := fun _ => False) fun _ => h.core) (fun _ _ => id)
    fun _ _ h => h trivial

theorem Safe.close_returns (ht : s.Held env) : Wp (closeAllocList env)
    (fun _ t => t = s.closed env) (fun _ _ => False) s :=
  Wp.mono (closeAllocList_wp (B := True) (A := fun _ => False) fun _ => ⟨h.core, ht⟩)
    (fun _ _ => id) fun _ _ h => h trivial

theorem Safe.deallocate_null (hp : p = 0 ∨ p = s.nullAddr env) :
    deallocate env p v allocator site s = .ok () s := by
  have hw : Wp (deallocate env p v allocator site) (fun _ t => t = s) (fun _ _ => False) s :=
    Wp.bind_iff.mpr (Wp.get_iff.mpr (Wp.ite (fun h0 => absurd h0 h.tidy.pos) fun _ =>
      Wp.ite (fun _ => rfl) fun hno => absurd hp hno))
  obtain ⟨⟨⟩, t, he, rfl⟩ := hw.eq_ok
  exact he

theorem Safe.releasable (hi : s.slots[i]? = some sl) (h0 : sl.userAddress ≠ 0)
    (hp : ¬ sl.IsProtected) (hu : sl.allocator.type ≠ .internal) : Releasable env s sl := by
  have hwf := h.core.slot hi
  have husr := hwf.isUser h0 hp hu
  exact ⟨husr.1, husr.not_isList, fun x hx => h.live hi husr
    ((hwf.placed husr.1).live_of_inBlock (hwf.region (husr.1.trans_ne (by decide))) hx)⟩

/-- A deallocator stops for no other reason than that it rejects the address. -/
theorem Safe.deallocate_wp (hc : Clean env s) (hty : allocator.type ≠ .internal)
    (hp : ¬ (p = 0 ∨ p = s.nullAddr env)) : Wp (deallocate env p true allocator site)
      (fun _ t => Deallocated env p true allocator site s t)
      (fun e _ => FreeRejects s p allocator site e) s := by
  have h0 : p ≠ 0 := fun h => hp (Or.inl h)
  obtain ⟨hs, hready⟩ := h.opened
  have hco : Clean env (s.opened env) := Silents.clean h hc silents_opened
  have hpre : Pre env (fun _ => False) (s.opened env) := ⟨fun _ => False.elim, hready⟩
  refine Wp.bind_iff.mpr (Wp.get_iff.mpr (Wp.ite (fun h0 => absurd h0 h.tidy.pos) fun _ =>
    Wp.ite (fun hno => absurd hno hp) fun _ => ?_))
  refine Wp.seq (Wp.mono h.open_returns (fun _ _ => id) fun _ _ => False.elim) ?_
  rintro _ _ rfl
  have hfreq : Ensures env (fun _ => False) (checkByFreq env)
      (fun _ t => ∃ b, Quiet (s.opened env) b ∧ t = { s.opened env with book := b })
      (fun _ => False) (s.opened env) :=
    checkByFreq_ensures fun _ _ ho _ => hco.not_overwritten hs.core ho
  refine Wp.seq (Wp.mono hfreq (fun _ _ => id) fun _ _ h => (h hpre).elim) ?_
  rintro _ t ⟨d, hq, rfl⟩
  set t : State := { s.opened env with book := d } with ht
  have hst : Cedes env (s.opened env) t := .single (.quiet d hq)
  have hpt := hpre.inners (Cedes.inners hst)
  have hts : Safe env t := hs.silents (fun _ => False.elim) (Inners.silents (Cedes.inners hst))
  refine Wp.seq (Wp.mono (@slotToFree_rejects env (fun _ => False) t p allocator site)
    (fun _ _ => id) fun e _ he => ?_) ?_
  · cases he hpt with
    | unknown hno nearest =>
      have hno' : ∀ (k : ℕ) (sl : Slot), s.slots[k]? = some sl → sl.userAddress ≠ p := hno
      exact .unknown hno' nearest
    | already hk hu hp => exact .already hk hu hp
    | mismatch hk hu hp ht => exact .mismatch hk hu hp ht
  · rintro ⟨i, sl⟩ _ ⟨⟨hi, hu, hnp, ht'⟩, rfl⟩
    have hrel := hts.releasable hi (hu ▸ h0) hnp (ht' ▸ hty)
    have hover : ¬ Overwritten env (s.opened env) sl := hco.not_overwritten hs.core
    refine Wp.seq (Wp.mono (freeSlot_wp (B := True) (A := fun _ => False) hi hnp
      (fun _ => ⟨hpt, hrel⟩) fun _ hI _ _ => hover ⟨⟨i, hi⟩, hrel.state, hI⟩) (fun _ _ => id)
      fun _ _ h => (h trivial).elim) ?_
    rintro _ u ⟨v, hv, hiv, hr⟩
    have hf : Freed env p allocator site (s.opened env) u :=
      .intro (hst.trans hv) hi hiv hu hnp ht' hr
    have hcu : Core env u := hf.core hs.core fun k sl' hk hu' hp' ht'' =>
      hs.releasable hk (hu' ▸ h0) hp' (ht'' ▸ hty)
    refine Wp.mono (closeAllocList_wp (B := True) (A := fun _ => False)
      fun _ => ⟨hcu, hf.same.held (State.opened_held s)⟩) ?_ fun _ _ h => (h trivial).elim
    rintro _ _ rfl
    exact .freed h0 hf rfl

theorem Deallocated.one (hty : allocator.type ≠ .internal) (hp : ¬ (p = 0 ∨ p = s.nullAddr env))
    (hd : Deallocated env p v allocator site s t) : ∃ (i : ℕ) (sl : Slot),
      s.slots[i]? = some sl ∧ sl.IsUser ∧ sl.userAddress = p ∧
      sl.allocator.type = allocator.type ∧
      (∃ new, t.slots[i]? = some new ∧ (new.state = .allProtected ∨ new.state = .empty)) ∧
      ∀ (k : ℕ) (sl' : Slot), k ≠ i → s.slots[k]? = some sl' → ¬ sl'.IsProtected →
        t.slots[k]? = some sl' := by
  cases hd with
  | null ha => exact absurd ha hp
  | @freed u h0 hf ht =>
    obtain ⟨hced, hi, hi', hua, hnp, hty', hr⟩ := hf
    have hin : Silents env (fun _ => False) s _ :=
      silents_entered.trans (Inners.silents (Cedes.inners hced))
    have hsafe := h.silents (fun _ => False.elim) hin
    have hu := (hsafe.core.slot hi').isUser (hua ▸ h0) hnp (hty' ▸ hty)
    have hslots : (s.entered env v).slots = s.slots := by cases v <;> rfl
    have hleft : t.slots = u.slots := by
      rw [ht]
      cases v <;> rfl
    refine ⟨_, _, hslots ▸ hi, hu, hua, hty', hleft ▸ hr.slot hi', fun k sl' hne hk hnp' => ?_⟩
    rw [hleft]
    exact (hr.local hsafe.core hi' (hu.1.trans_ne (by decide))).slot hne
      (Cedes.slot hced (hslots ▸ hk) hnp')

end Deallocate

section Run

/-- In a run with all no man's land intact a deallocator returns just for the pointers that stand for
no block, where it does nothing, and for the blocks from an allocator of its kind. It finds the slot
that was created for the block, which alone leaves use, and no slot in use or free is changed
besides. In all other cases it stops with a report of what the slots say about the address. -/
theorem deallocate_exact (hset : settings.Proper env) (hw : Run env settings w)
    (hc : Clean env w.st) (hty : allocator.type ≠ .internal) :
    ((∃ t, deallocate env p true allocator site w.st = .ok () t) ↔
      p = 0 ∨ p = w.st.nullAddr env ∨ ∃ (i : ℕ) (sl : Slot), w.st.slots[i]? = some sl ∧
        sl.state = .inUse ∧ sl.userAddress = p ∧ sl.allocator.type = allocator.type) ∧
    (∀ t, deallocate env p true allocator site w.st = .ok () t →
      (p = 0 ∨ p = w.st.nullAddr env) ∧ t = w.st ∨ ∃ (i : ℕ) (sl : Slot),
        findSlot (·.userAddress == p) w.st.slots = some (i, sl) ∧ sl.state = .inUse ∧
        (∀ b ∈ w.heap, b.addr = p → b.slot = i) ∧
        (∃ new, t.slots[i]? = some new ∧ (new.state = .allProtected ∨ new.state = .empty)) ∧
        ∀ (k : ℕ) (sl' : Slot), k ≠ i → w.st.slots[k]? = some sl' →
          sl'.state = .inUse ∨ sl'.state = .free → t.slots[k]? = some sl') ∧
    ∀ e t, deallocate env p true allocator site w.st = .error e t →
      FreeRejects w.st p allocator site e := by
  have hm := Run.matched hset hw
  have h := hm.safe
  by_cases hp : p = 0 ∨ p = w.st.nullAddr env
  · have hd : deallocate env p true allocator site w.st = .ok () w.st := h.deallocate_null hp
    refine ⟨⟨fun _ => hp.imp_right Or.inl, fun _ => ⟨_, hd⟩⟩, fun t he => Or.inl ⟨hp, ?_⟩,
      fun e t he => ?_⟩
    · rw [hd] at he
      cases he
      rfl
    · rw [hd] at he
      cases he
  have hdw : Wp (deallocate env p true allocator site)
      (fun _ t => Deallocated env p true allocator site w.st t)
      (fun e _ => FreeRejects w.st p allocator site e) w.st := h.deallocate_wp hc hty hp
  have h0 : p ≠ 0 := fun h => hp (Or.inl h)
  refine ⟨⟨fun ⟨t, he⟩ => ?_, fun hin => ?_⟩, fun t he => Or.inr ?_, fun e t he => hdw.stops he⟩
  · obtain ⟨i, sl, hi, hu, hua, ht, -⟩ := (hdw.returns he).one h hty hp
    exact Or.inr (Or.inr ⟨i, sl, hi, hu.1, hua, ht⟩)
  · rcases hin with h' | h' | ⟨i, sl, hi, hst, hua, ht⟩
    · exact absurd (Or.inl h') hp
    · exact absurd (Or.inr h') hp
    cases he : deallocate env p true allocator site w.st with
    | ok a t => exact ⟨t, rfl⟩
    | error e t =>
      have hone : ∀ {k : ℕ} {sl' : Slot}, w.st.slots[k]? = some sl' → sl'.userAddress = p →
          sl' = sl := by
        intro k sl' hk hk'
        obtain rfl := h.core.eq_of_user hi hk (hua.trans hk'.symm) (hua ▸ h0)
        exact Option.some.inj (hk.symm.trans hi)
      cases hdw.stops he with
      | unknown hno => exact absurd hua (hno i sl hi)
      | already hk hk' hpr =>
        obtain rfl := hone hk hk'
        rcases hpr with hpr | hpr <;> rw [hst] at hpr <;> cases hpr
      | mismatch hk hk' _ hty' =>
        obtain rfl := hone hk hk'
        exact absurd ht hty'
  · obtain ⟨i, sl, hi, hu, hua, -, hnew, hothers⟩ := (hdw.returns he).one h hty hp
    refine ⟨i, sl, hua ▸ h.core.findSlot_eq hi (hua ▸ h0), hu.1, fun b hb ha => ?_, hnew,
      fun k sl' hne hk hs => hothers k sl' hne hk ?_⟩
    · obtain ⟨sl', hi', hcar, -⟩ := hm.slot hb
      exact h.core.eq_of_user hi' hi (hcar.addr.trans (ha.trans hua.symm))
        (by rw [hcar.addr, ha]; exact h0)
    · rintro (hpr | hpr) <;> rcases hs with hs | hs <;> rw [hs] at hpr <;> cases hpr

theorem deallocate_exact_sample : ∃ (w : World) (b : Block),
    Run Env.sample (Settings.sample (-1) (-1)) w ∧ b ∈ w.heap ∧ b.size = 100 ∧
    (∃ t, deallocate Env.sample b.addr true .free Site.unknown w.st = .ok () t) ∧
    ∀ e t, deallocate Env.sample b.addr true .delArray Site.unknown w.st = .error e t →
      FreeRejects w.st b.addr .delArray Site.unknown e := by
  obtain ⟨w, hw, hp⟩ := @Reach.tame Env.sample (Settings.sample (-1) (-1))
    [.malloc 100 Site.unknown] (fun w => w.heap.any fun b => decide (b.size = 100 ∧
      b.allocator.type = .malloc)) (by decide +kernel)
  obtain ⟨b, hb, hp⟩ := List.any_eq_true.mp hp
  obtain ⟨hn, ht⟩ := of_decide_eq_true hp
  have hset : (Settings.sample (-1) (-1)).Proper Env.sample := Settings.sample_proper _ _
  have hrun : Run Env.sample (Settings.sample (-1) (-1)) w := hw.mono _ _ fun _ _ h => h.proper
  obtain ⟨sl, hi, hcar, -⟩ := (Run.matched hset hrun).slot hb
  have hfree := @deallocate_exact Env.sample _ w b.addr .free Site.unknown hset hrun
    (hw.clean hset) (by decide)
  have hdel := @deallocate_exact Env.sample _ w b.addr .delArray Site.unknown hset hrun
    (hw.clean hset) (by decide)
  exact ⟨w, b, hrun, hb, hn, hfree.1.mpr (Or.inr (Or.inr ⟨_, sl, hi, hcar.user.1, hcar.addr,
    by rw [hcar.allocator, ht]; rfl⟩)), hdel.2.2⟩

end Run

end Duma

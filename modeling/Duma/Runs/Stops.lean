import Duma.Runs.Reports

/-! # How calls may stop

What the stops of a call may be, when the stops of its allocation are known. Whatever is reported of
the no man's land during a call is about a slot that was overwritten when the call began.
-/

namespace Duma

variable {env : Env} {settings : Settings} {s t u : State} {sl sl' new : Slot} {e : Stop} {c : Call}
  {r : Request} {allocator : Allocator} {site : Site} {i k p q m n : ℕ} {v : Bool} {α β : Type}
  {prog : M α} {A : Stop → Prop}

section Rules

theorem Safe.demand_ends (h : Safe env t) {f : Unit → M β} (hf : Ends A (f ()) t) :
    Ends A (initOnDemand env settings >>= f) t := by
  refine Wp.seq (R := fun _ u => u = t) (Wp.bind_iff.mpr (Wp.get_iff.mpr (Wp.ite
    (fun h0 => absurd h0 h.tidy.pos) fun _ => rfl))) ?_
  rintro _ _ rfl
  exact hf

variable (hA : ∀ e : Stop, e.ordinary = true → A e)
include hA

theorem slotForUserAddress_ends : Ends A (slotForUserAddress env p) t :=
  (readSlots_ends hA).seq fun _ _ _ => trivial

theorem memcpy_ends {dest src : ℕ} : Ends A (memcpy env dest src n) t := by
  have hacc : Ends A (memcpyAccess env dest src n) t := by
    refine Wp.bind_iff.mpr (Wp.get_iff.mpr (Wp.ite (fun _ => hA _ rfl) fun _ => ?_))
    refine (touch_ends hA).seq fun _ _ _ => (touch_ends hA).seq fun _ _ _ => ?_
    exact Wp.ite (fun _ => hA _ rfl) fun _ => trivial
  exact hacc.seq fun _ _ _ => Wp.bind_iff.mpr (Wp.get_iff.mpr (storeRange_ends hA))

theorem strEnd_ends (count x : ℕ) : Ends A (strEnd env count x) t := by
  induction count generalizing x with
  | zero => exact hA _ rfl
  | succ count ih =>
    exact Wp.bind_iff.mpr (Wp.get_iff.mpr (Wp.ite (fun _ => hA _ rfl) fun _ =>
      Wp.ite (fun _ => trivial) fun _ => ih (x + 1)))

end Rules

section Back

theorem Overwritten.congr (hs : t.slots = s.slots) (hcfg : t.cfg = s.cfg)
    (hm : ∀ x, sl.Slack x → t.mem x = s.mem x) (h : Overwritten env t sl) :
    Overwritten env s sl := by
  obtain ⟨⟨k, hk⟩, hst, hI⟩ := h
  refine ⟨⟨k, hs ▸ hk⟩, hst, fun hI' => hI fun x hx => ?_⟩
  rw [hm x hx, hI' x hx, State.slackfillOf, State.slackfillOf, hcfg]

theorem Core.not_slack_of_inBlock {x : ℕ} (h : Core env s) (hi : s.slots[i]? = some new)
    (hn : new.IsUser) (hx : new.InBlock x) (hk : s.slots[k]? = some sl) (hu : sl.IsUser) :
    ¬ sl.Slack x := by
  intro hs
  have own : ∀ {j : ℕ} {sl : Slot}, s.slots[j]? = some sl → sl.IsUser → sl.Live x → sl.Owns x :=
    fun hj hu hl => ((h.slot hj).placed hu.1).owns_of_live
      ((h.slot hj).region (hu.1.trans_ne (by decide))) hl
  have hlive := ((h.slot hi).placed hn.1).live_of_inBlock
    ((h.slot hi).region (hn.1.trans_ne (by decide))) hx
  obtain rfl := h.eq_of_owns hi hk (own hi hn hlive) (own hk hu hs.1)
  obtain rfl := Option.some.inj (hk.symm.trans hi)
  exact hs.2 hx

theorem Silents.overwritten (h : Safe env s) (hs : Silents env (fun _ => False) s t)
    (ho : Overwritten env t sl) : Overwritten env s sl := by
  have hc := Silents.calm (fun _ => False.elim) h.core hs
  exact ho.back hc.keeps (Silents.cfg hs) hc.core

theorem Provided.overwritten (hP : Provided env r s p t i new) (h : Safe env s)
    (hcfg : t.cfg = s.cfg) (ho : Overwritten env t sl) : Overwritten env s sl := by
  have hu := ho.isUser hP.safe.core
  obtain ⟨⟨k, hk⟩, hst, hI⟩ := ho
  by_cases hki : k = i
  · subst hki
    obtain rfl := Option.some.inj (hk.symm.trans hP.slot)
    refine absurd (fun x hx => ?_) hI
    rw [hP.slack hx, State.slackfillOf]
    split
    · next hx => exact (hP.slackfill hx).symm
    · rw [hcfg]
  · have hs := hP.back hki hk hu
    have hwf := h.core.slot hs
    refine ⟨⟨k, hs⟩, hst, fun hI' => hI fun x hx => ?_⟩
    have hown := (hwf.placed hst).owns_of_live (hwf.region (hst.trans_ne (by decide))) hx.1
    rw [(hP.others hs hu).2.1 x hown, hI' x hx, State.slackfillOf, State.slackfillOf, hcfg]

theorem Provided.copied_overwritten (hP : Provided env r s p t i new) (h : Safe env s)
    (hcfg : t.cfg = s.cfg) (hm : r.userSize = m)
    (ho : Overwritten env (t.copied p q n m) sl) : Overwritten env s sl := by
  have hsafe : Safe env (t.copied p q n m) := hP.safe.copied
  have hu := ho.isUser hsafe.core
  obtain ⟨k, hk⟩ := ho.1
  rw [State.copied_slots] at hk
  refine hP.overwritten h hcfg (ho.congr State.copied_slots State.copied_cfg fun x hx => ?_)
  rw [State.copied_mem, if_neg fun hin => ?_]
  refine hP.safe.core.not_slack_of_inBlock hP.slot hP.user ⟨?_, ?_⟩ hk hu hx
  · rw [hP.addr]
    exact hin.1
  · rw [hP.addr, hP.userSize, hm]
    exact hin.2

end Back


section Parts

theorem Call.Proper.entered (hc : c.Proper env s) (h : Safe env s)
    (hr : c.request env s = some r) : Safe env (s.entered env (!r.protectAllocList)) ∧
      (s.entered env (!r.protectAllocList)).Serves env (Served env) r ∧
      (r.protectAllocList = false → Open env (s.entered env (!r.protectAllocList))) := by
  have hst : c.start s = s := by
    cases c <;> first | rfl | cases hr
  have hS := hc.serves (Or.inl (hst.symm ▸ hr))
  rw [hst] at hS
  refine ⟨h.silents (fun _ => False.elim) silents_entered, (State.serves_congr ?_).mpr hS,
    fun hp => ?_⟩
  · cases r.protectAllocList <;> rfl
  · rw [hp]
    exact h.opened.2.open

variable (h : Safe env s) (hA : ∀ e : Stop, e.ordinary = true → A e)
  (hslack : ∀ sl e, Overwritten env s sl → SlackReport sl e → A e)
include h hA hslack

theorem Safe.deallocate_ends (hty : allocator.type ≠ .internal) (ho : v = false → Open env s) :
    Ends A (deallocate env p v allocator site) s := by
  by_cases hp : p = 0 ∨ p = s.nullAddr env
  · exact Wp.of_ok (h.deallocate_null hp) trivial
  have hin : Silents env (fun _ => False) s (s.entered env v) := silents_entered
  refine Wp.mono (Duma.deallocate_wp (fun _ => False) (B := True) (A := A) (fun _ =>
    ⟨⟨⟨fun _ => False.elim, h.core, h.live⟩, ho⟩, fun k sl hk hua hnp ht => ?_⟩)
    ⟨fun sl e hov => hslack sl e (Silents.overwritten h hin hov), fun _ e he => ?_⟩
    fun h0 => absurd h0 h.tidy.pos) (fun _ _ _ => trivial) fun _ _ he => he trivial
  · refine (h.silents (fun _ => False.elim) hin).releasable (i := k) ?_
      (fun h0 => hp (Or.inl (hua.symm.trans h0))) hnp (ht ▸ hty)
    cases v <;> exact hk
  · cases he <;> exact hA _ rfl

theorem Safe.reallocCopy_ends (hO : Open env s) (hH : s.Held env)
    (hS : s.Serves env (Served env) (s.tls.reallocRequest m site)) (hm : m ≠ 0)
    (ha : Ends A (allocate env (s.tls.reallocRequest m site)) s) :
    Ends A (reallocCopy env p m site) s := by
  have huser : (s.tls.reallocRequest m site).allocator.type ≠ .internal :=
    show AllocType.malloc ≠ .internal by decide
  refine Wp.bind_iff.mpr (Wp.get_iff.mpr (ha.seq fun a t ha => ?_))
  have hs := (allocate_post huser h.tidy).returns ha
  refine Wp.ite (fun _ => trivial) fun ha0 => ?_
  obtain ⟨j, new, hP⟩ := hs.provided h hS huser ha0 (Or.inl hm)
  have hOt := (hs.open h hS rfl hO hH).1
  -- what is freed in the end is freed in a state in which nothing is worse than at the start
  have finish : ∀ {n : ℕ} {x : State}, x = t.copied a p n m → Ends A (do
      deallocate env p false .realloc site
      pure a) x := by
    rintro n _ rfl
    refine Ends.seq ?_ fun _ _ _ => trivial
    refine (hP.safe.copied).deallocate_ends hA (fun sl e ho =>
      hslack sl e (hP.copied_overwritten h hs.cfg rfl ho)) (by decide) fun _ => ?_
    unfold State.copied
    split
    exacts [hOt, hOt]
  refine (slotForUserAddress_ends hA).seq fun w u hw => ?_
  obtain ⟨rfl, rfl⟩ := slotForUserAddress_post.returns hw
  cases findSlot (·.userAddress == p) u.slots with
  | none => exact hA _ rfl
  | some w =>
    refine Wp.ite (fun hlt => (memcpy_ends hA).seq fun _ x hx => ?_) fun hlt =>
      (memcpy_ends hA).seq fun _ x hx => ?_
    · obtain ⟨rfl, -⟩ := memcpy_post.returns hx
      refine (storeRange_ends hA).seq fun _ y hy => ?_
      obtain rfl := storeRange_post.returns hy
      exact finish (by rw [State.copied, if_pos hlt])
    · obtain ⟨rfl, -⟩ := memcpy_post.returns hx
      exact finish (by rw [State.copied, if_neg hlt])

theorem Safe.realloc_ends
    (hS : ∀ r, (Call.realloc p m site).request env s = some r → s.Serves env (Served env) r)
    (ha : ∀ r, (Call.realloc p m site).request env s = some r →
      Ends A (allocate env r) (s.opened env)) :
    Ends A (realloc env settings p m site) s := by
  have hopen : Silents env (fun _ => False) s (s.opened env) := silents_opened
  obtain ⟨hs, hr⟩ := h.opened
  have hslack' : ∀ sl e, Overwritten env (s.opened env) sl → SlackReport sl e → A e :=
    fun sl e ho => hslack sl e (Silents.overwritten h hopen ho)
  refine h.demand_ends ((openAllocList_ends hA).seq fun _ t ht => ?_)
  obtain rfl := openAllocList_post.returns ht
  have close : ∀ {q : ℕ} {u : State}, Ends A (do
      closeAllocList env
      pure q) u := (closeAllocList_ends hA).seq fun _ _ _ => trivial
  refine Wp.ite (fun h0 => ?_) fun h0 => Wp.ite (fun hm => ?_) fun hm => ?_
  · exact Wp.bind_iff.mpr (Wp.get_iff.mpr ((ha _ (if_pos h0)).seq fun _ _ _ => close))
  · exact (hs.deallocate_ends hA hslack' (by decide) fun _ => hr.open).seq fun _ _ _ => close
  · have hreq : (Call.realloc p m site).request env s = some (s.tls.reallocRequest m site) :=
      (if_neg h0).trans (if_neg hm)
    exact (hs.reallocCopy_ends hA hslack' hr.open (State.opened_held s) (hS _ hreq) hm
      (ha _ hreq)).seq fun _ _ _ => close

omit h hslack in
theorem dupString_ends {str : ℕ} (ha : ∀ size, strlen env str s = .ok size s →
      Ends A (allocate env (s.tls.strdupRequest size site)) s) :
    Ends A (dupString env str site) s := by
  have hlen : Ends A (strlen env str) s := (strEnd_ends hA _ _).seq fun _ _ _ => trivial
  refine hlen.seq fun size t ht => ?_
  obtain ⟨he, rfl⟩ := strlen_post.returns ht
  refine Wp.bind_iff.mpr (Wp.get_iff.mpr ((ha size he).seq fun _ _ _ => ?_))
  refine Wp.ite (fun _ => trivial) fun _ => (touch_ends hA).seq fun _ _ _ =>
    (touch_ends hA).seq fun _ _ _ => Wp.ite (fun _ => hA _ rfl) fun _ => ?_
  exact Ends.seq (Wp.bind_iff.mpr (Wp.get_iff.mpr (storeRange_ends hA))) fun _ _ _ => trivial

/-- A call that is no initialisation, and no check of one address, may stop as its allocation may,
or for a slot that is overwritten. -/
theorem Call.exec_ends (hc : c.Proper env s) (hinit : c.initSettings s = none)
    (hcheck : ∀ p, c = .check p → Ends A (Duma.check env p) s)
    (ha : ∀ r, c.request env s = some r →
      Ends A (allocate env r) (s.entered env (!r.protectAllocList))) :
    Ends A (c.exec env settings) s := by
  have demand : ∀ {β : Type} {f : Unit → M β}, Ends A (f ()) s →
      Ends A (initOnDemand env settings >>= f) s := h.demand_ends
  have get : ∀ {f : State → M ℕ}, Ends A (f s) s → Ends A (do
      initOnDemand env settings
      f (← get)) s := fun hf => demand (Wp.bind_iff.mpr (Wp.get_iff.mpr hf))
  cases c with
  | malloc size site => exact get (ha _ rfl)
  | calloc nelem elsize site => exact get (ha _ rfl)
  | memalign alignment size site => exact get (ha _ rfl)
  | valloc size site => exact get (ha _ rfl)
  | new size allocator site => exact get (ha _ rfl)
  | posixMemalign alignment size site =>
    refine Ends.seq (Wp.ite (fun _ => trivial) fun _ => demand (Wp.bind_iff.mpr (Wp.get_iff.mpr
      (Ends.seq (ha _ rfl) fun _ _ _ => Wp.ite (fun _ => trivial) fun _ => trivial))))
      fun v t _ => ?_
    cases v <;> exact trivial
  | strdup str site =>
    exact demand (dupString_ends hA fun size he => ha _ (strdup_request he))
  | realloc oldBuffer newSize site =>
    refine h.realloc_ends hA hslack (fun r hr => hc.serves (Or.inl hr)) fun r hr => ?_
    have hp : r.protectAllocList = false := by
      change (if oldBuffer = 0 then some (s.tls.reallocNewRequest newSize site)
        else if newSize = 0 then none else some (s.tls.reallocRequest newSize site)) = some r at hr
      split_ifs at hr <;> cases hr <;> rfl
    have hin := ha r hr
    rwa [hp] at hin
  | free baseAdr site =>
    exact Ends.seq (demand (h.deallocate_ends hA hslack (by decide) nofun)) fun _ _ _ => trivial
  | delete ptr allocator site =>
    exact Ends.seq (h.deallocate_ends hA hslack hc.public nofun) fun _ _ _ => trivial
  | check address => exact Ends.seq (hcheck address rfl) fun _ _ _ => trivial
  | checkAll =>
    refine Ends.seq (Wp.mono h.checkAll_wp (fun _ _ _ => trivial) ?_) fun _ _ _ => trivial
    rintro e _ ⟨sl, ho, hr⟩
    exact hslack sl e ho hr
  | mallocUsableSize ptr =>
    refine Ends.seq (Wp.bind_iff.mpr (Wp.get_iff.mpr (Wp.ite (fun _ => trivial) fun _ =>
      Wp.ite (fun _ => Wp.bind_iff.mpr (hA _ rfl)) fun _ => (mprotect_ends hA).seq
        fun _ _ _ => (slotForUserAddress_ends hA).seq fun v _ _ => ?_))) fun _ _ _ => trivial
    cases v with
    | none => exact hA _ rfl
    | some v => exact (mprotect_ends hA).seq fun _ _ _ => trivial
  | delFrame =>
    refine Ends.seq ((openAllocList_ends hA).seq fun _ _ _ => Wp.bind_iff.mpr (Wp.get_iff.mpr
      ((readSlots_ends hA).seq fun _ _ _ => (closeAllocList_ends hA).seq fun _ _ _ => trivial)))
      fun _ _ _ => trivial
  | write lo hi f => exact (storeRange_ends hA).seq fun _ _ _ => trivial
  | set tls => exact trivial
  | init settings =>
    have hd : s.initDone = true := by
      by_contra hn
      rw [Call.initSettings, if_neg hn] at hinit
      cases hinit
    refine Ends.seq (Wp.bind_iff.mpr (Wp.get_iff.mpr (Wp.ite (fun _ => trivial) fun hn =>
      absurd hd hn))) fun _ _ _ => trivial

end Parts

end Duma

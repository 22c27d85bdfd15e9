import Duma.Runs.Leaks

/-! # Reports of the no man's land

A check of a block reports it just if a byte of its live range that is not the program's differs from
the fill value of the time when the block was handed out.
-/

namespace Duma

variable {env : Env} {settings : Settings} {w w' : World} {s t u : State} {b : Block} {sl : Slot}
  {c : Call} {r : Request} {allocator : Allocator} {site : Site} {i x p : ℕ} {e : Stop}

/-- The addresses that the program can use without a fault; there are none for 0 bytes. -/
def Block.InLive (b : Block) (sl : Slot) (x : ℕ) : Prop :=
  b.size ≠ 0 ∧
    if b.below then sl.userAddress ≤ x ∧ x < sl.internalAddress + sl.internalSize
    else sl.internalAddress ≤ x ∧ x < sl.protAddress

/-- A byte beside the block is not what it was when the block was handed out. -/
def World.Damaged (w : World) (b : Block) : Prop := ∃ sl, w.st.slots[b.slot]? = some sl ∧
  ∃ x, b.InLive sl x ∧ ¬ b.Has x ∧ w.st.mem x ≠ b.slackfill

/-- A build without a fill value in the slots has one for all of them. -/
def World.Uniform (env : Env) (w : World) : Prop :=
  env.explicitInit = false → ∀ b ∈ w.heap, b.slackfill = w.st.cfg.slackfill

section Fill

theorem World.Act.uniform {W : List Block → ℕ → ℕ → Prop} (hm : w.Matched env)
    (h : w.Uniform env) (ha : World.Act env W w w') : w'.Uniform env := by
  intro hx b hb
  cases ha with
  | silent hok hs =>
    rw [(hs.calm hok hm.safe.core).cfg]
    exact h hx b hb
  | take hS hu ht hans =>
    rcases List.mem_cons.mp hb with rfl | hb
    · exact hans.slackfill
    · rw [ht.same.cfg]
      exact h hx b hb
  | release _ _ hr =>
    rw [hr.same.cfg]
    exact h hx b (List.mem_filter.mp hb).1
  | @fill heap s b₀ b' lo hi f hsame =>
    rcases List.mem_cons.mp hb with rfl | hb
    · obtain ⟨f, rfl⟩ := hsame
      exact h hx b₀ List.mem_cons_self
    · exact h hx b (List.mem_cons_of_mem _ hb)
  | write =>
    obtain ⟨b, hb', rfl⟩ := List.mem_map.mp hb
    exact h hx b hb'
  | forget => exact h hx b (List.mem_cons_of_mem _ hb)
  | set hset =>
    rcases hset with hset | rfl | rfl
    · rw [hx] at hset
      cases hset
    · exact absurd hb List.not_mem_nil
    · exact h hx b hb
  | initDone => exact h hx b hb

theorem Run.uniform (hset : settings.Proper env) (hw : Run env settings w) : w.Uniform env :=
  Run.keeps hset (fun _ _ _ hb => absurd hb List.not_mem_nil) (fun hm h ha => ha.uniform hm h) hw

theorem Slot.Carries.live_iff (h : sl.Carries env b) (hr : sl.RegionOk env) :
    sl.Live x ↔ b.InLive sl x := by
  by_cases h0 : b.size = 0
  · exact ⟨fun hl => absurd (h.size.trans h0) hl.1, fun hl => absurd h0 hl.1⟩
  have hside := h.side h0
  unfold Slot.Live Block.InLive
  rw [h.size]
  refine and_congr_right fun _ => ?_
  by_cases hb : b.below = true
  · rw [if_pos hb, Slot.accessArea_of_lt (hside.mp hb) hr]
  · rw [if_neg hb, Slot.accessArea_of_le (by have := hside.not.mp hb; omega)]

theorem World.Matched.intact_iff (h : w.Matched env) (hu : w.Uniform env) (hb : b ∈ w.heap)
    (hi : w.st.slots[b.slot]? = some sl) : sl.Intact env w.st ↔ ¬ w.Damaged b := by
  obtain ⟨sl', hi', hcar, hr, -⟩ := h.slot hb
  obtain rfl := Option.some.inj (hi.symm.trans hi')
  have hval : w.st.slackfillOf env sl = b.slackfill := by
    unfold State.slackfillOf
    split
    · next hx => exact hcar.fill hx
    · next hx => exact (hu (by simpa using hx) b hb).symm
  constructor
  · rintro hI ⟨sl', hi', x, hl, hx, hne⟩
    obtain rfl := Option.some.inj (hi.symm.trans hi')
    exact hne ((hI x ⟨(hcar.live_iff hr).mpr hl, hcar.inBlock.not.mpr hx⟩).trans hval)
  · intro hD x hx
    by_contra hne
    exact hD ⟨sl, hi, x, (hcar.live_iff hr).mp hx.1, hcar.inBlock.not.mp hx.2, hval ▸ hne⟩

theorem World.Matched.block_of_overwritten (h : w.Matched env) (hu : w.Uniform env)
    (hc : w.Covered) (ho : Overwritten env w.st sl) : ∃ b ∈ w.heap, b.size ≠ 0 ∧ w.Damaged b ∧
      w.st.slots[b.slot]? = some sl := by
  obtain ⟨⟨k, hk⟩, hs, hI⟩ := ho
  obtain ⟨b, hb, rfl⟩ := hc hk (Overwritten.isUser ⟨⟨k, hk⟩, hs, hI⟩ h.safe.core)
  obtain ⟨sl', hi', hcar, -⟩ := h.slot hb
  obtain rfl := Option.some.inj (hk.symm.trans hi')
  have h0 : b.size ≠ 0 := fun h0 => hI fun x hx => absurd (hcar.size.trans h0) hx.1.1
  exact ⟨b, hb, h0, by_contra fun hD => hI ((h.intact_iff hu hb hk).mpr hD), hk⟩

end Fill

section Checks

variable (h : Safe env s)
include h

/-- The check of a block returns just if it is intact. -/
theorem Safe.check_wp (hi : s.slots[i]? = some sl) (hu : sl.IsUser) :
    Wp (check env sl.userAddress) (fun _ _ => sl.Intact env s)
      (fun e _ => SlackReport sl e ∧ ¬ sl.Intact env s) s := by
  obtain ⟨hs, hr⟩ := h.opened
  have h0 := (h.core.userAddress_ne hi hu).1
  refine Wp.ite (fun h => absurd h h0) fun _ => Wp.seq (Wp.mono h.open_returns (fun _ _ => id)
    fun _ _ => False.elim) ?_
  rintro _ _ rfl
  have hslot : Wp (slotToCheck env sl.userAddress)
      (fun v t => v = sl ∧ t = s.opened env) (fun _ _ => False) (s.opened env) := by
    have hread : Wp (slotForUserAddress env sl.userAddress)
        (fun v t => v = some (i, sl) ∧ t = s.opened env) (fun _ _ => False) (s.opened env) :=
      Wp.bind_iff.mpr (Wp.bind_iff.mpr (Wp.get_iff.mpr (Wp.bind_iff.mpr
        (touch_wp (fun _ => ⟨hs.core.findSlot_eq hi h0, rfl⟩) fun hno => hno hr.open))))
    refine Wp.seq hread ?_
    rintro _ _ ⟨rfl, rfl⟩
    refine Wp.ite (fun hp => ?_) fun _ => ⟨rfl, rfl⟩
    rcases hp with hp | hp <;> rw [hu.1] at hp <;> cases hp
  refine Wp.seq (Wp.mono hslot (fun _ _ => id) fun _ _ => False.elim) ?_
  rintro _ _ ⟨rfl, rfl⟩
  refine Wp.seq (Wp.mono (hr.checkSlack_wp hi hu.1) (fun _ _ => id)
    fun _ _ he => ⟨he.2.1, he.2.2⟩) ?_
  rintro _ _ ⟨rfl, hI⟩
  exact Wp.mono (hs.close_returns (State.opened_held s)) (fun _ _ _ => hI) fun _ _ => False.elim

/-- The check of all slots returns just if every slot in use is intact. -/
theorem Safe.checkAll_wp : Wp (checkAll env)
    (fun _ _ => ∀ (k : ℕ) (sl : Slot), s.slots[k]? = some sl → sl.state = .inUse →
      sl.Intact env s)
    (fun e _ => ∃ sl, Overwritten env s sl ∧ SlackReport sl e) s := by
  obtain ⟨hs, hr⟩ := h.opened
  refine Wp.seq (Wp.mono h.open_returns (fun _ _ => id) fun _ _ => False.elim) ?_
  rintro _ _ rfl
  refine Wp.seq (Wp.mono hr.checkAllSlacks_wp (fun _ _ => id) ?_) ?_
  · rintro e _ ⟨-, k, sl, hk, hst, hrep, hI⟩
    exact ⟨sl, ⟨⟨k, hk⟩, hst, hI⟩, hrep⟩
  · rintro _ _ ⟨rfl, hall⟩
    exact Wp.mono (hs.close_returns (State.opened_held s)) (fun _ _ _ => hall)
      fun _ _ => False.elim

/-- The release of a block returns just if the block is intact, and with it all others when the
periodic check is due. -/
theorem Safe.deallocate_checks (hi : s.slots[i]? = some sl) (hu : sl.IsUser)
    (hty : sl.allocator.type = allocator.type) :
    Wp (deallocate env sl.userAddress true allocator site)
      (fun _ _ => sl.Intact env s ∧ (s.Due → ∀ (k : ℕ) (sl' : Slot), s.slots[k]? = some sl' →
        sl'.state = .inUse → sl'.Intact env s))
      (fun e _ => ∃ sl', (sl' = sl ∨ s.Due) ∧ Overwritten env s sl' ∧ SlackReport sl' e) s := by
  obtain ⟨hs, hr⟩ := h.opened
  have hne := h.core.userAddress_ne hi hu
  have hty' : allocator.type ≠ .internal := hty ▸ hu.2
  refine Wp.bind_iff.mpr (Wp.get_iff.mpr (Wp.ite (fun h0 => absurd h0 h.tidy.pos) fun _ =>
    Wp.ite (fun hno => absurd hno (not_or.mpr hne)) fun _ => ?_))
  refine Wp.seq (Wp.mono h.open_returns (fun _ _ => id) fun _ _ => False.elim) ?_
  rintro _ _ rfl
  refine Wp.seq (Wp.mono hr.checkByFreq_wp (fun _ _ => id) ?_) ?_
  · rintro e _ ⟨hd, sl', ho, hrep⟩
    exact ⟨sl', Or.inr hd, ho, hrep⟩
  rintro _ t ⟨⟨d, hq, rfl⟩, hdue⟩
  set t : State := { s.opened env with book := d } with ht
  have hst : Cedes env (s.opened env) t := .single (.quiet d hq)
  have hpre : Pre env (fun _ => False) (s.opened env) := ⟨fun _ => False.elim, hr⟩
  have hpt := hpre.inners (Cedes.inners hst)
  have hts : Safe env t := hs.silents (fun _ => False.elim) (Inners.silents (Cedes.inners hst))
  have hit : t.slots[i]? = some sl := hi
  have hnp : ¬ sl.IsProtected := by rintro (hp | hp) <;> rw [hu.1] at hp <;> cases hp
  have hslot : Wp (slotToFree env sl.userAddress allocator site)
      (fun v u => v = (i, sl) ∧ u = t) (fun _ _ => False) t := by
    have hfind : Ensures env (fun _ => False) (slotToFree env sl.userAddress allocator site)
        (fun v u => (t.slots[v.1]? = some v.2 ∧ v.2.userAddress = sl.userAddress ∧
          ¬ v.2.IsProtected ∧ v.2.allocator.type = allocator.type) ∧ u = t) (fun _ => False) t :=
      slotToFree_ensures (fun hno _ _ => hno ⟨i, sl, hit, rfl, hnp, hty⟩) hne.1
    refine Wp.mono hfind ?_ fun _ _ he => he hpt
    rintro ⟨k, sl'⟩ u ⟨⟨hk, hua, -⟩, rfl⟩
    obtain rfl := hts.core.eq_of_user hit hk hua.symm hne.1
    obtain rfl := Option.some.inj (hit.symm.trans hk)
    exact ⟨rfl, rfl⟩
  refine Wp.seq (Wp.mono hslot (fun _ _ => id) fun _ _ => False.elim) ?_
  rintro _ _ ⟨rfl, rfl⟩
  have hrel := hts.releasable hit hne.1 hnp hu.2
  have hstop : Wp (freeSlot env i sl site)
      (fun _ u => ∃ v, Cedes env t v ∧ v.slots[i]? = some sl ∧ Release env i sl site v u)
      (fun e _ => True → ∃ sl', (sl' = sl ∨ s.Due) ∧ Overwritten env s sl' ∧ SlackReport sl' e) t :=
    freeSlot_wp hit hnp (fun _ => ⟨hpt, hrel⟩) fun _ hI e he =>
      ⟨sl, Or.inl rfl, ⟨⟨i, hi⟩, hu.1, hI⟩, he⟩
  have hpost : Post (freeSlot env i sl site) (fun _ _ => sl.Intact env s) t := by
    refine Wp.bind_iff.mpr (modifyBook_wp.mpr (Wp.seq (R := fun _ _ => sl.Intact env s) ?_
      fun _ _ hI => Wp.intro (fun _ _ _ => hI) fun _ _ _ => trivial))
    have hpu := hpt.inners (Cedes.inners (.single (.quiet
      { t.book with numDeallocs := t.book.numDeallocs + 1 } ⟨rfl, rfl, rfl, rfl⟩)))
    exact Wp.mono (hpu.ready.checkSlack_wp hit hu.1) (fun _ _ h => h.2) fun _ _ _ => trivial
  refine Wp.seq (Wp.mono (hstop.and hpost) (fun _ _ => id) fun _ _ he => he.1 trivial) ?_
  rintro _ u ⟨⟨v, hv, hiv, hrl⟩, hI⟩
  have hf : Freed env sl.userAddress allocator site (s.opened env) u :=
    .intro (hst.trans hv) hit hiv rfl hnp hty hrl
  have hcu : Core env u := hf.core hs.core fun k sl' hk hu' hp' ht'' =>
    hs.releasable hk (hu' ▸ hne.1) hp' (ht'' ▸ hty')
  exact Wp.mono (closeAllocList_wp (B := True) (A := fun _ => False)
    fun _ => ⟨hcu, hf.same.held (State.opened_held s)⟩) (fun _ _ _ => ⟨hI, hdue⟩)
    fun _ _ he => (he trivial).elim

end Checks

section Run

variable (hset : settings.Proper env) (hw : Run env settings w)
include hset hw

/-- In every run a block is reported by a check of it or of all blocks, or when it is freed, just if a
byte of its live range beside it is not what it was when the block was handed out. -/
theorem checks_exact (hb : b ∈ w.heap) (hty : allocator.type = b.allocator.type) :
    ((∃ t, check env b.addr w.st = .ok () t) ↔ ¬ w.Damaged b) ∧
    ((∃ t, deallocate env b.addr true allocator site w.st = .ok () t) ↔
      ¬ w.Damaged b ∧ (w.st.Due → ∀ sl, ¬ Overwritten env w.st sl)) ∧
    ((∃ t, checkAll env w.st = .ok () t) ↔ ∀ sl, ¬ Overwritten env w.st sl) ∧
    (w.Damaged b ↔ ∃ sl, w.st.slots[b.slot]? = some sl ∧ Overwritten env w.st sl) := by
  have hm := Run.matched hset hw
  obtain ⟨sl, hi, hcar, -⟩ := hm.slot hb
  have hiff := hm.intact_iff (Run.uniform hset hw) hb hi
  have hall : (∀ sl, ¬ Overwritten env w.st sl) ↔ ∀ (k : ℕ) (sl : Slot),
      w.st.slots[k]? = some sl → sl.state = .inUse → sl.Intact env w.st :=
    ⟨fun h k sl hk hs => by_contra fun hI => h sl ⟨⟨k, hk⟩, hs, hI⟩,
      fun h sl ⟨⟨k, hk⟩, hs, hI⟩ => hI (h k sl hk hs)⟩
  rw [hall, ← hiff, ← hcar.addr]
  refine ⟨⟨fun ⟨t, he⟩ => ?_, fun hI => ?_⟩, ⟨fun ⟨t, he⟩ => ?_, fun hI => ?_⟩,
    ⟨fun ⟨t, he⟩ => ?_, fun hI => ?_⟩, ?_⟩
  · exact (hm.safe.check_wp hi hcar.user).returns he
  · cases he : check env sl.userAddress w.st with
    | ok a t => exact ⟨t, rfl⟩
    | error e t => exact absurd hI ((hm.safe.check_wp hi hcar.user).stops he).2
  · exact (hm.safe.deallocate_checks hi hcar.user (hcar.allocator ▸ hty.symm)).returns he
  · cases he : deallocate env sl.userAddress true allocator site w.st with
    | ok a t => exact ⟨t, rfl⟩
    | error e t =>
      obtain ⟨sl', hor, ⟨⟨k, hk⟩, hs, hno⟩, -⟩ :=
        (hm.safe.deallocate_checks hi hcar.user (hcar.allocator ▸ hty.symm)).stops he
      rcases hor with rfl | hdue
      · exact absurd hI.1 hno
      · exact absurd (hI.2 hdue k sl' hk hs) hno
  · exact hm.safe.checkAll_wp.returns he
  · cases he : checkAll env w.st with
    | ok a t => exact ⟨t, rfl⟩
    | error e t =>
      obtain ⟨sl', ⟨⟨k, hk⟩, hs, hno⟩, -⟩ := hm.safe.checkAll_wp.stops he
      exact absurd (hI k sl' hk hs) hno
  · rw [← not_iff_not, ← hiff]
    refine ⟨fun hI ⟨sl', hi', ho⟩ => ?_, fun h => by_contra fun hI =>
      h ⟨sl, hi, ⟨_, hi⟩, hcar.user.1, hI⟩⟩
    obtain rfl := Option.some.inj (hi.symm.trans hi')
    exact ho.2.2 hI

omit hset hw in
theorem checks_exact_sample : ∃ (w : World) (b : Block),
    Run Env.sample (Settings.sample (-1) (-1)) w ∧ b ∈ w.heap ∧ b.size = 100 ∧
    ((∃ t, check Env.sample b.addr w.st = .ok () t) ↔ ¬ w.Damaged b) ∧
    ((∃ t, deallocate Env.sample b.addr true b.allocator Site.unknown w.st = .ok () t) ↔
      ¬ w.Damaged b ∧ (w.st.Due → ∀ sl, ¬ Overwritten Env.sample w.st sl)) := by
  obtain ⟨w, hw, ⟨b, hb, hn, -⟩, -⟩ := exists_guarded
  have hrun : Run Env.sample (Settings.sample (-1) (-1)) w := hw.mono _ _ fun _ _ h => h.proper
  have h := @checks_exact Env.sample _ w b b.allocator Site.unknown (Settings.sample_proper _ _)
    hrun hb rfl
  exact ⟨w, b, hrun, hb, hn, h.1, h.2.1⟩

/-- In a build that initialises itself the check of all blocks returns just if no block of the program
is damaged, and otherwise reports one that is. -/
theorem checkAll_exact (hx : env.explicitInit = false) (hcop : settings.copies = []) :
    ((∃ t, checkAll env w.st = .ok () t) ↔ ∀ b ∈ w.heap, b.size ≠ 0 → ¬ w.Damaged b) ∧
    ∀ e t, checkAll env w.st = .error e t → ∃ b ∈ w.heap, b.size ≠ 0 ∧ w.Damaged b ∧
      ∃ sl, w.st.slots[b.slot]? = some sl ∧ SlackReport sl e := by
  have hm := Run.matched hset hw
  have hu := Run.uniform hset hw
  have hblock : ∀ {sl : Slot}, Overwritten env w.st sl → ∃ b ∈ w.heap, b.size ≠ 0 ∧
      w.Damaged b ∧ w.st.slots[b.slot]? = some sl := fun ho =>
    hm.block_of_overwritten hu (Run.covered hx hcop hset hw) ho
  refine ⟨⟨fun ⟨t, he⟩ b hb h0 => ?_, fun hD => ?_⟩, fun e t he => ?_⟩
  · obtain ⟨sl, hi, hcar, -⟩ := hm.slot hb
    exact (hm.intact_iff hu hb hi).mp (hm.safe.checkAll_wp.returns he _ sl hi hcar.user.1)
  · cases he : checkAll env w.st with
    | ok a t => exact ⟨t, rfl⟩
    | error e t =>
      obtain ⟨sl, ho, -⟩ := hm.safe.checkAll_wp.stops he
      obtain ⟨b, hb, h0, hd, -⟩ := hblock ho
      exact absurd hd (hD b hb h0)
  · obtain ⟨sl, ho, hrep⟩ := hm.safe.checkAll_wp.stops he
    obtain ⟨b, hb, h0, hd, hi⟩ := hblock ho
    exact ⟨b, hb, h0, hd, sl, hi, hrep⟩

omit hset hw in
theorem checkAll_exact_sample : ∃ (w : World) (b : Block),
    Run Env.sample (Settings.sample (-1) (-1)) w ∧ b ∈ w.heap ∧ b.size = 100 ∧
    ((∃ t, checkAll Env.sample w.st = .ok () t) ↔ ∀ b ∈ w.heap, b.size ≠ 0 → ¬ w.Damaged b) := by
  obtain ⟨w, hw, ⟨b, hb, hn, -⟩, -⟩ := exists_guarded
  have hrun : Run Env.sample (Settings.sample (-1) (-1)) w := hw.mono _ _ fun _ _ h => h.proper
  exact ⟨w, b, hrun, hb, hn,
    (checkAll_exact (Settings.sample_proper _ _) hrun rfl rfl).1⟩

end Run

end Duma

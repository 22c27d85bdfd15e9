import Duma.Runs.Accept

/-! # Queries about a pointer

`malloc_usable_size` and `duma_check` find the slot of a pointer like `free` does, but they do not
ask for its type, and the former not for its state. They answer for any slot that carries the
pointer as its user address, which need not be a block of the program.
-/

namespace Duma

variable {env : Env} {settings : Settings} {s t : State} {w : World} {sl : Slot} {i p : ℕ}
  {site : Site}

section Rejects

def State.BlockAddr (s : State) (p : ℕ) : Prop :=
  ∃ (i : ℕ) (sl : Slot), s.slots[i]? = some sl ∧ sl.IsUser ∧ sl.userAddress = p

/-- A slot that is no block of the program carries the address: one with freed memory, a free one
or the one of the list. -/
def State.StaleAddr (s : State) (p : ℕ) : Prop :=
  ∃ (i : ℕ) (sl : Slot), s.slots[i]? = some sl ∧ ¬ sl.IsUser ∧ sl.userAddress = p

def Aborts {α : Type} (m : M α) (s : State) : Prop :=
  ∃ (r : Report) (t : State), m s = .error (.abort r) t

/-- The queries accept only blocks of the program, and reject the other addresses in the list. -/
structure Rejects (env : Env) (settings : Settings) (s : State) (p : ℕ) : Prop where
  usable : (∃ n t, mallocUsableSize env p s = .ok n t) → s.BlockAddr p
  checked : (∃ t, check env p s = .ok () t) → s.BlockAddr p
  stale : s.StaleAddr p → Aborts (mallocUsableSize env p) s ∧ Aborts (check env p) s ∧
    ∀ site, Aborts (free env settings p site) s

theorem mallocUsableSize_found (h0 : p ≠ 0) (hn : p ≠ s.nullAddr env) :
    Post (mallocUsableSize env p)
      (fun _ _ => ∃ (i : ℕ) (sl : Slot), s.slots[i]? = some sl ∧ sl.userAddress = p) s := by
  refine Wp.bind_iff.mpr (Wp.get_iff.mpr (Wp.ite (fun h => ?_) fun _ => ?_))
  · rcases h with h | h
    exacts [absurd h h0, absurd h hn]
  refine Wp.ite (fun _ => Wp.bind_iff.mpr trivial) fun _ => Wp.seq mprotect_post ?_
  rintro _ _ rfl
  refine Wp.seq slotForUserAddress_post ?_
  rintro v t ⟨rfl, ht⟩
  cases hf : findSlot (·.userAddress == p) _ with
  | none => exact trivial
  | some v =>
    obtain ⟨hi, hu⟩ := findSlot_some hf
    exact Wp.intro (fun _ _ _ => ⟨v.1, v.2, hi, by simpa using hu⟩) fun _ _ _ => trivial

theorem check_found (h0 : p ≠ 0) : Post (check env p)
    (fun _ _ => ∃ (i : ℕ) (sl : Slot), s.slots[i]? = some sl ∧ sl.userAddress = p) s := by
  refine Wp.ite (fun h => absurd h h0) fun _ => Wp.seq openAllocList_post ?_
  rintro _ _ rfl
  refine Wp.seq (R := fun _ _ => ∃ (i : ℕ) (sl : Slot), s.slots[i]? = some sl ∧
    sl.userAddress = p) (Wp.seq slotForUserAddress_post ?_) fun _ _ h =>
      Wp.intro (fun _ _ _ => h) fun _ _ _ => trivial
  rintro v t ⟨rfl, ht⟩
  cases hf : findSlot (·.userAddress == p) _ with
  | none => exact Wp.seq (R := fun _ _ => True) (Wp.intro (fun _ _ _ => trivial)
      fun _ _ _ => trivial) fun _ _ _ => trivial
  | some v =>
    obtain ⟨hi, hu⟩ := findSlot_some hf
    exact Wp.intro (fun _ _ _ => ⟨v.1, v.2, hi, by simpa using hu⟩) fun _ _ _ => trivial

theorem rejects_of_not_stale (h0 : p ≠ 0) (hn : p ≠ s.nullAddr env) (h : ¬ s.StaleAddr p) :
    Rejects env settings s p := by
  have block : (∃ (i : ℕ) (sl : Slot), s.slots[i]? = some sl ∧ sl.userAddress = p) →
      s.BlockAddr p := by
    rintro ⟨i, sl, hi, hu⟩
    by_cases huser : sl.IsUser
    · exact ⟨i, sl, hi, huser, hu⟩
    · exact absurd ⟨i, sl, hi, huser, hu⟩ h
  constructor
  · rintro ⟨n, t, hr⟩
    exact block ((mallocUsableSize_found h0 hn).returns hr)
  · rintro ⟨t, hr⟩
    exact block ((check_found h0).returns hr)
  · exact fun hst => absurd hst h

end Rejects

section Answers

theorem mallocUsableSize_answers (h : Safe env s) (hi : s.slots[i]? = some sl)
    (h0 : sl.userAddress ≠ 0) (hn : sl.userAddress ≠ s.nullAddr env) :
    Wp (mallocUsableSize env sl.userAddress) (fun n _ => n = sl.userSize) (fun _ _ => False) s := by
  have hc := h.core
  have hopen : Core env (s.setList env .readWrite) := hc.setList nofun
  refine Wp.bind_iff.mpr (Wp.get_iff.mpr (Wp.ite (fun hnull => ?_) fun _ => ?_))
  · rcases hnull with hnull | hnull
    exacts [absurd hnull h0, absurd hnull hn]
  refine Wp.ite (fun ha => absurd ha h.tidy.pos) fun _ => ?_
  refine Wp.seq (R := fun _ t => t = s.setList env .readWrite)
    (mprotect_wp (fun _ => rfl) fun hno => hno hc.mprotectOk_list) ?_
  rintro _ _ rfl
  have hread : Wp (slotForUserAddress env sl.userAddress)
      (fun v t => v = some (i, sl) ∧ t = s.setList env .readWrite) (fun _ _ => False)
      (s.setList env .readWrite) := by
    refine Wp.bind_iff.mpr (Wp.bind_iff.mpr (Wp.get_iff.mpr (Wp.bind_iff.mpr
      (touch_wp (fun _ => ⟨hc.findSlot_eq hi h0, rfl⟩) fun hno => hno fun x h1 h2 => ?_))))
    have := hc.setList_page (p := .readWrite) x
    rwa [if_pos ⟨h1, h2⟩] at this
  refine Wp.seq hread ?_
  rintro _ _ ⟨rfl, rfl⟩
  exact Wp.seq (R := fun _ _ => True)
    (mprotect_wp (fun _ => trivial) fun hno => hno hopen.mprotectOk_list) fun _ _ _ => rfl

theorem free_aborts (h : Safe env s) (hi : s.slots[i]? = some sl) (hu : ¬ sl.IsUser)
    (h0 : sl.userAddress ≠ 0) (hn : sl.userAddress ≠ s.nullAddr env) :
    Aborts (free env settings sl.userAddress site) s := by
  have hno : ∀ (k : ℕ) (sl' : Slot), s.slots[k]? = some sl' → sl'.userAddress = sl.userAddress →
      ¬ sl'.IsProtected → sl'.allocator.type ≠ AllocType.malloc := by
    intro k sl' hk hua hnp hty
    obtain rfl := h.core.eq_of_user hi hk hua.symm h0
    obtain rfl := Option.some.inj (hi.symm.trans hk)
    exact hu ((h.core.slot hi).isUser h0 hnp (by rw [hty]; decide))
  have hwp : Wp (deallocate env sl.userAddress true .free site) (fun _ _ => False)
      (fun e _ => True → ∃ r, e = .abort r) s := by
    refine Wp.mono (deallocate_wp (fun _ => False) (A := fun e => ∃ r, e = .abort r) (B := True)
      (fun _ => ⟨⟨⟨fun _ => False.elim, h.core, h.live⟩, nofun⟩, ?_⟩) ⟨?_, ?_⟩
      fun ha => absurd ha h.tidy.pos) (fun _ t hd => ?_) fun _ _ he => he
    · intro k sl' hk hua hnp hty
      exact absurd hty (hno k sl' hk hua hnp)
    · rintro _ e - (rfl | rfl) <;> exact ⟨_, rfl⟩
    · rintro - e (_ | _ | _) <;> exact ⟨_, rfl⟩
    · cases hd with
      | null hnull =>
        rcases hnull with hnull | hnull
        exacts [h0 hnull, hn hnull]
      | freed _ hf =>
        obtain ⟨-, hk, -, hua, hnp, hty, -⟩ := hf
        exact hno _ _ hk hua hnp hty
  have hfree : Wp (free env settings sl.userAddress site) (fun _ _ => False)
      (fun e _ => ∃ r, e = .abort r) s := by
    refine Wp.seq (R := fun _ t => t = s) (Wp.bind_iff.mpr (Wp.get_iff.mpr
      (Wp.ite (fun ha => absurd ha h.tidy.pos) fun _ => rfl))) ?_
    rintro _ _ rfl
    exact Wp.mono hwp (fun _ _ => id) fun _ _ he => he trivial
  unfold Aborts
  cases hr : free env settings sl.userAddress site s with
  | ok _ t => exact (hfree.returns hr).elim
  | error e t =>
    obtain ⟨r, rfl⟩ := hfree.stops hr
    exact ⟨r, t, rfl⟩

end Answers

/-- In a run the queries treat a pointer as they should just if no slot carries it but a block of
the program; that is enough in any state. `free` rejects the other slots. -/
theorem query_rejects_iff (env : Env) (settings : Settings) {p : ℕ} (hp : p ≠ 0) :
    (∀ w, Reach env settings (fun _ _ => True) w → p ≠ w.st.nullAddr env → ¬ w.st.StaleAddr p →
      Rejects env settings w.st p) ∧
    ∀ w, settings.Proper env → Run env settings w → p ≠ w.st.nullAddr env →
      ((Rejects env settings w.st p ↔ ¬ w.st.StaleAddr p) ∧
        (w.st.StaleAddr p → ∀ site, Aborts (free env settings p site) w.st)) := by
  refine ⟨fun w _ hn h => rejects_of_not_stale hp hn h, fun w hset hw hn => ?_⟩
  have hs := Run.safe hset hw
  refine ⟨⟨?_, rejects_of_not_stale hp hn⟩, ?_⟩
  · rintro h ⟨i, sl, hi, hu, rfl⟩
    obtain ⟨n, t, hr, -⟩ := (mallocUsableSize_answers hs hi hp hn).eq_ok
    obtain ⟨⟨r, t', hr'⟩, -⟩ := h.stale ⟨i, sl, hi, hu, rfl⟩
    rw [hr] at hr'
    cases hr'
  · rintro ⟨i, sl, hi, hu, rfl⟩ site
    exact free_aborts hs hi hu hp hn

instance : Decidable (s.StaleAddr p) :=
  decidable_of_iff (∃ sl ∈ s.slots, ¬ (sl.state = .inUse ∧ sl.allocator.type ≠ .internal) ∧
    sl.userAddress = p) (by
      simp only [State.StaleAddr, List.mem_iff_getElem?]
      constructor
      · rintro ⟨sl, ⟨i, hi⟩, h⟩
        exact ⟨i, sl, hi, h⟩
      · rintro ⟨i, sl, hi, h⟩
        exact ⟨sl, ⟨i, hi⟩, h⟩)

theorem query_rejects_block : ∃ w, Run Env.sample (Settings.sample (-1) (-1)) w ∧
    33558416 ≠ w.st.nullAddr Env.sample ∧ w.st.BlockAddr 33558416 ∧
      Rejects Env.sample (Settings.sample (-1) (-1)) w.st 33558416 := by
  obtain ⟨w, hw, hP⟩ := exists_run (Settings.sample (-1) (-1)) [.malloc 100 Site.unknown]
    (fun w => decide (33558416 ≠ w.st.nullAddr Env.sample ∧ ¬ w.st.StaleAddr 33558416 ∧
      ∃ sl ∈ w.st.slots, (sl.state = .inUse ∧ sl.allocator.type ≠ .internal) ∧
        sl.userAddress = 33558416)) (by decide +kernel)
  obtain ⟨hn, hst, sl, hm, hu, hp⟩ := of_decide_eq_true hP
  obtain ⟨i, hi⟩ := List.mem_iff_getElem?.mp hm
  exact ⟨w, hw, hn, ⟨i, sl, hi, hu, hp⟩, (((query_rejects_iff _ _ (by decide)).2 w
    (Settings.sample_proper _ _) hw hn).1).mpr hst⟩

/-- The size of a freed block is still told. -/
theorem query_rejects_fails : ¬ ∀ (env : Env) (settings : Settings) (w : World) (p : ℕ),
    settings.Proper env → Run env settings w → p ≠ 0 → p ≠ w.st.nullAddr env →
      Rejects env settings w.st p := by
  intro h
  obtain ⟨w, hw, hP⟩ := exists_run (Settings.sample (-1) (-1))
    [.malloc 100 Site.unknown, .free 33558416 Site.unknown]
    (fun w => decide (33558416 ≠ w.st.nullAddr Env.sample ∧ w.st.StaleAddr 33558416) &&
      yields (mallocUsableSize Env.sample 33558416) w.st fun n _ => n == 100) (by decide +kernel)
  obtain ⟨hP, hy⟩ := Bool.and_eq_true _ _ ▸ hP
  obtain ⟨hn, hst⟩ := of_decide_eq_true hP
  obtain ⟨n, t, hr, -⟩ := exists_yields hy
  obtain ⟨⟨r, t', hr'⟩, -⟩ := (h _ _ w 33558416 (Settings.sample_proper _ _) hw (by decide)
    hn).stale hst
  rw [hr] at hr'
  cases hr'

end Duma

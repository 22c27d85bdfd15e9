import Duma.Runs.Admitted

/-! # Counters of memory and slots

The counters in every state between two calls of a run. Both defects of eviction show in them: a
failed eviction leaves what it released on the counters of memory, and a slot that it empties is
not counted as unused. The first chunk is on no counter at all.
-/

namespace Duma

variable {env : Env} {settings : Settings} {w : World} {limit : ℤ}

def arenakB : ℤ := 1024

section Start

variable {s : State} (h : Constructed env s)
include h

theorem Constructed.totalkB (q : Slot → Bool) (hq : q Slot.zero = false) : s.totalkB q =
    (Slot.ofList s.allocList env.pageSize).kBIf q +
      (Slot.ofPool (s.allocList + env.pageSize) (env.arenaSize - env.pageSize)).kBIf q := by
  rw [State.totalkB, h.slots, firstSlots, List.map_cons, List.map_cons, List.map_replicate,
    List.sum_cons, List.sum_cons, List.sum_replicate, hq]
  simp only [Bool.false_eq_true, if_false, nsmul_zero, add_zero]
  rfl

theorem Constructed.protectedGap : s.protectedGap = 0 := by
  obtain ⟨n, ht⟩ := h.trace
  have hk : s.protectedkB = 0 := h.totalkB _ rfl
  rw [State.protectedGap, hk, h.protected, ht]
  rfl

theorem Constructed.allocatedGap (hP : 1024 ∣ env.pageSize) : s.allocatedGap = -arenakB := by
  have ha := @Env.arenaSize_eq env
  have hlt := env.pageSize_lt_arenaSize
  have hk : s.heldkB = kB env.pageSize + kB (env.arenaSize - env.pageSize) := by
    rw [State.heldkB, h.totalkB _ rfl, Slot.kBIf_holds_of (Or.inr rfl),
      Slot.kBIf_holds_of (Or.inl rfl)]
    rfl
  have hadd := kB_add hP (Nat.dvd_sub (hP.trans env.dvd_arenaSize) hP) (by omega)
  have hz : kB (env.pageSize + (env.arenaSize - env.pageSize)) = 1024 := by
    rw [Nat.add_sub_cancel' hlt.le, ha]
    decide
  rw [State.allocatedGap, h.allocated, h.protected, hk, ← hadd, hz, arenakB]
  norm_num

theorem Constructed.unusedGap : s.unusedGap = 0 := by
  obtain ⟨n, ht⟩ := h.trace
  have h2 := env.two_lt_slotsPerPage
  have hc : s.count .empty = env.slotsPerPage - 2 := by
    have hz : (Slot.zero.state == SlotState.empty) = true := rfl
    simp [State.count, h.slots, firstSlots, Slot.ofList, Slot.ofPool, List.countP_replicate, hz]
  rw [State.unusedGap, h.unUsed, hc, ht]
  simp [drops]

end Start

section Slots

theorem Tidy.length_lt {s : State} (h : Tidy env s) : s.slots.length < 2 ^ 64 := by
  have h1 := h.list
  have h2 := h.length
  have h3 := env.pageSize_lt
  unfold sizeofSlot at h2
  omega

theorem Reach.unusedGap (h : Reach env settings (fun _ c => c.Public) w) :
    w.st.unusedGap = 0 ∧ w.st.book.unUsedSlots < 2 ^ 64 ∧ w.st.slots.length < 2 ^ 64 := by
  have h₀ : ∀ s, Constructed env s → s.unusedGap = 0 ∧ s.book.unUsedSlots < 2 ^ 64 ∧
      s.slots.length < 2 ^ 64 := fun s hc => by
    have h1 := hc.tidy.length_lt
    have h2 : s.book.unUsedSlots ≤ s.slots.length := by
      rw [hc.unUsed, hc.slots]
      simp only [firstSlots, List.length_cons, List.length_replicate]
      omega
    exact ⟨hc.unusedGap, by omega, h1⟩
  refine h.keeps (I := fun s => s.unusedGap = 0 ∧ s.book.unUsedSlots < 2 ^ 64 ∧
    s.slots.length < 2 ^ 64) public_driven h₀ ?_
  rintro s t hT ⟨h1, h2, -⟩ ha
  have htal := ha.tallied hT
  exact ⟨htal.gap.trans h1, htal.lt h2, (ha.tidy hT).length_lt⟩

/-- `unUsedSlots` is the number of empty slots exactly as long as the number of slots that
evictions have emptied is a multiple of `2 ^ 64`. -/
theorem unUsedSlots_eq_iff (h : Reach env settings (fun _ c => c.Public) w) :
    w.st.book.unUsedSlots = w.st.count .empty ↔ 2 ^ 64 ∣ drops w.st.trace := by
  obtain ⟨h1, h2, h3⟩ := h.unusedGap
  have h4 := w.st.count_le_length .empty
  unfold State.unusedGap at h1
  omega

/-- The runs of calls with proper requests in which `PROTECT_FREE` has the value `limit`. -/
abbrev LimitedRun (env : Env) (settings : Settings) (limit : ℤ) : World → Prop :=
  Reach env settings fun w c => c.Proper env w.st ∧ (c.start w.st).cfg.protectFree = limit

/-- With a limit of 3 kB, freeing one byte evicts the block that the start of the process freed. -/
theorem exists_dropped : ∃ w, LimitedRun Env.sample (Settings.sample 3 (-1)) 3 w ∧
    w.st.book.unUsedSlots ≠ w.st.count .empty := by
  obtain ⟨w, hw, hp⟩ : ∃ w, LimitedRun Env.sample (Settings.sample 3 (-1)) 3 w ∧
      (w.st.book.unUsedSlots != w.st.count .empty) = true :=
    @exists_reach Env.sample (Settings.sample 3 (-1)) _ _
      [.malloc 1 Site.unknown, .free 33558527 Site.unknown] _
      (fun _ _ => of_decide_eq_true) (by decide +kernel)
  exact ⟨w, hw, bne_iff_ne.mp hp⟩

theorem unUsedSlots_fails : ¬ ∀ (env : Env) (settings : Settings) (w : World),
    Reach env settings (fun _ c => c.Public) w → w.st.book.unUsedSlots = w.st.count .empty := by
  intro h
  obtain ⟨w, hw, hp⟩ := exists_dropped
  exact hp (h _ _ w (hw.mono _ _ fun _ _ hc => hc.1.1))

theorem unUsedSlots_eq_iff_sample : ∃ w, Run Env.sample (Settings.sample 3 (-1)) w ∧
    (w.st.book.unUsedSlots = w.st.count .empty ↔ 2 ^ 64 ∣ drops w.st.trace) := by
  obtain ⟨w, hw, -⟩ := exists_dropped
  have hrun : Run Env.sample (Settings.sample 3 (-1)) w := hw.mono _ _ fun _ _ hc => hc.1
  exact ⟨w, hrun, unUsedSlots_eq_iff (hrun.mono _ _ fun _ _ hc => hc.1)⟩

end Slots

section Memory

variable (hP : 1024 ∣ env.pageSize) (hb : settings.Proper env)
include hP hb

theorem Run.gaps (h : Run env settings w) :
    w.st.protectedGap = 0 ∧ w.st.allocatedGap = -arenakB := by
  refine (h.always (I := fun s => s.protectedGap = 0 ∧ s.allocatedGap = -arenakB) (run_driven hb)
    (fun s hc => ⟨hc.protectedGap, hc.allocatedGap hP⟩) ?_).2
  rintro s t hs ⟨h1, h2⟩ ha
  have hbal := ha.balanced hP (fun _ _ _ => id) hs
  exact ⟨hbal.protected.trans h1, hbal.allocated.trans h2⟩

/-- `sumProtectedMem` is the protected memory exactly as long as no eviction has given up after
it had released some. -/
theorem sumProtectedMem_eq_iff (h : Run env settings w) :
    w.st.book.sumProtectedMem = w.st.protectedkB ↔ shortfalls w.st.trace = 0 := by
  have hg := (Run.gaps hP hb h).1
  unfold State.protectedGap at hg
  omega

omit hP hb in
/-- Mapping a chunk under a limit of 1 kB gives up the 2 kB of the block that the start of the
process freed, and does not book them. -/
theorem exists_shortfall : ∃ w, Run Env.sample (Settings.sample (-1) 1) w ∧
    w.st.book.sumProtectedMem ≠ w.st.protectedkB := by
  obtain ⟨w, hw, hp⟩ := exists_run (Settings.sample (-1) 1) [.malloc (2 ^ 20) Site.unknown]
    (fun w => w.st.book.sumProtectedMem != w.st.protectedkB) (by decide +kernel)
  exact ⟨w, hw, bne_iff_ne.mp hp⟩

omit hP hb in
theorem sumProtectedMem_fails : ¬ ∀ (env : Env) (settings : Settings) (w : World),
    1024 ∣ env.pageSize → settings.Proper env → Run env settings w →
      w.st.book.sumProtectedMem = w.st.protectedkB := by
  intro h
  obtain ⟨w, hw, hp⟩ := exists_shortfall
  exact hp (h _ _ w dvd_rfl (Settings.sample_proper _ _) hw)

omit hP hb in
theorem sumProtectedMem_eq_iff_sample : ∃ w, Run Env.sample (Settings.sample (-1) 1) w ∧
    (w.st.book.sumProtectedMem = w.st.protectedkB ↔ shortfalls w.st.trace = 0) := by
  obtain ⟨w, hw, -⟩ := exists_shortfall
  exact ⟨w, hw, sumProtectedMem_eq_iff dvd_rfl (Settings.sample_proper _ _) hw⟩

def State.userkB (s : State) : ℕ :=
  s.totalkB fun sl => sl.state == .inUse && sl.allocator.type != .internal

def State.listkB (s : State) : ℕ :=
  s.totalkB fun sl => sl.state == .inUse && sl.allocator.type == .internal

def State.freekB (s : State) : ℕ := s.totalkB (·.state == .free)

omit hP hb in
theorem State.heldkB_eq (s : State) : s.heldkB = s.freekB + (s.userkB + s.listkB) := by
  have h1 : s.totalkB (·.state == .inUse) = s.userkB + s.listkB :=
    s.totalkB_add (fun sl => by cases sl.state <;> cases sl.allocator.type <;> rfl)
      fun sl => by cases sl.state <;> cases sl.allocator.type <;> rfl
  rw [← h1]
  exact s.totalkB_add (fun _ => rfl) fun sl => by cases sl.state <;> rfl

/-- `sumAllocatedMem` covers the blocks of the program and the protected memory exactly as long as
the pool, the slot list and what failed evictions left on the counter are as large as the first
chunk, which is not on the counter. -/
theorem sumAllocatedMem_covers_iff (h : Run env settings w) :
    (0 ≤ w.st.book.sumAllocatedMem ∧
      (w.st.userkB + w.st.protectedkB : ℤ) ≤ w.st.book.sumAllocatedMem) ↔
    arenakB ≤ w.st.freekB + w.st.listkB + shortfalls w.st.trace := by
  obtain ⟨h1, h2⟩ := Run.gaps hP hb h
  have h3 := w.st.heldkB_eq
  unfold State.protectedGap at h1
  unfold State.allocatedGap at h2
  omega

omit hP hb in
theorem exists_negative : ∃ w, Run Env.sample (Settings.sample 0 (-1)) w ∧
    w.st.book.sumAllocatedMem < 0 := by
  obtain ⟨w, hw, hp⟩ := exists_run (Settings.sample 0 (-1)) []
    (fun w => decide (w.st.book.sumAllocatedMem < 0)) (by decide +kernel)
  exact ⟨w, hw, of_decide_eq_true hp⟩

omit hP hb in
theorem sumAllocatedMem_fails : ¬ ∀ (env : Env) (settings : Settings) (w : World),
    settings.Proper env → Run env settings w → 0 ≤ w.st.book.sumAllocatedMem ∧
      (w.st.userkB + w.st.protectedkB : ℤ) ≤ w.st.book.sumAllocatedMem := by
  intro h
  obtain ⟨w, hw, hp⟩ := exists_negative
  exact absurd (h _ _ w (Settings.sample_proper _ _) hw).1 (not_le.mpr hp)

omit hP hb in
theorem sumAllocatedMem_covers_iff_sample : ∃ w, Run Env.sample (Settings.sample 0 (-1)) w ∧
    ((0 ≤ w.st.book.sumAllocatedMem ∧
      (w.st.userkB + w.st.protectedkB : ℤ) ≤ w.st.book.sumAllocatedMem) ↔
      arenakB ≤ w.st.freekB + w.st.listkB + shortfalls w.st.trace) := by
  obtain ⟨w, hw, -⟩ := exists_negative
  exact ⟨w, hw, sumAllocatedMem_covers_iff dvd_rfl (Settings.sample_proper _ _) hw⟩

end Memory

section Limit

theorem LimitedRun.booked (h0 : 0 < limit) (hb : settings.Proper env)
    (hl : env.explicitInit = false → settings.cfg.protectFree = limit)
    (h : LimitedRun env settings limit w) :
    Safe env w.st ∧ w.st.book.sumProtectedMem ≤ limit := by
  have hd : Driven env settings (fun cfg => cfg.protectFree = limit) (Served env)
      fun w c => c.Proper env w.st ∧ (c.start w.st).cfg.protectFree = limit :=
    driven hb hl (fun _ _ h => h) fun _ _ h => h
  refine h.always (I := fun s => s.book.sumProtectedMem ≤ limit) hd
    (fun s hc => by rw [hc.protected]; exact h0.le) ?_
  intro s t hs hle ha
  exact ha.sumProtected_le (fun _ _ _ => id) (fun _ => id) h0 hs hle

/-- The limit `PROTECT_FREE` is respected, also where evictions fail. -/
theorem protectedkB_le_limit (hP : 1024 ∣ env.pageSize) (h0 : 0 < limit)
    (hb : settings.Proper env)
    (hl : env.explicitInit = false → settings.cfg.protectFree = limit)
    (h : LimitedRun env settings limit w) : (w.st.protectedkB : ℤ) ≤ limit := by
  have h1 := (Run.gaps hP hb (h.mono _ _ fun _ _ hc => hc.1)).1
  have h2 := (h.booked h0 hb hl).2
  unfold State.protectedGap at h1
  omega

theorem protectedkB_le_limit_sample : ∃ w, LimitedRun Env.sample (Settings.sample 3 (-1)) 3 w ∧
    (w.st.protectedkB : ℤ) ≤ 3 := by
  obtain ⟨w, hw, -⟩ := exists_dropped
  exact ⟨w, hw, protectedkB_le_limit dvd_rfl (by decide) (Settings.sample_proper _ _)
    (fun _ => rfl) hw⟩

end Limit

end Duma

import Duma.Runs.Admitted

/-! # Access to the slot list between calls

Every public call that opens the slot list closes it again, where the list is then, and holds the
lock as often as before. This is so for all arguments, also those that the allocator mishandles.
-/

namespace Duma

variable {env : Env} {s t : State} {settings : Settings} {r : Request} {site : Site} {p x : ℕ}
  {address oldBuffer newSize size str : ℕ} {allocator : Allocator} {w : World} {c : Call}
  {grow : M Unit} {copies : List (ℕ × Site)}

section Shut

/-- The pages of the list are inaccessible. -/
def Shut (env : Env) (s : State) : Prop :=
  ∀ x, s.allocList ≤ x → x < s.allocList + s.allocListSize → s.page env x = .noAccess

theorem Shut.congr (h : Shut env s) (hp : t.pages = s.pages) (ha : t.allocList = s.allocList)
    (hl : t.allocListSize = s.allocListSize) : Shut env t := by
  intro x h1 h2
  rw [State.page, hp]
  exact h x (ha ▸ h1) (by rwa [ha, hl] at h2)

theorem setList_shut (hd : env.pageSize ∣ s.allocList) : Shut env (s.setList env .noAccess) := by
  intro x h1 h2
  rw [State.setList, State.setPages_page hd (Nat.dvd_add hd (Env.dvd_roundUp _)), if_pos]
  have := env.le_roundUp s.allocListSize
  exact ⟨h1, h2.trans_le (by simp only [State.setList, State.setPages]; omega)⟩

theorem releaseSemaphore_shut (h : Shut env s) :
    Post (releaseSemaphore env) (fun _ t => Shut env t) s := by
  refine Wp.bind_iff.mpr (Wp.get_iff.mpr (Wp.ite (fun _ => h) fun _ => Wp.ite (fun _ => trivial)
    fun _ => ?_))
  exact modifyBook_wp.mpr (h.congr rfl rfl rfl)

theorem closeAllocList_shut : Post (closeAllocList env) (fun _ t => Shut env t) s := by
  refine Wp.bind_iff.mpr (Wp.get_iff.mpr (Wp.bind_iff.mpr (mprotect_wp (fun hok => ?_)
    fun _ => trivial)))
  exact releaseSemaphore_shut (setList_shut hok.dvd)

theorem storeRange_shut {lo hi : ℕ} {f : ℕ → UInt8} (h : Shut env s) :
    Post (storeRange env lo hi f) (fun _ t => Shut env t) s :=
  storeRange_post.post fun _ _ ht => ht ▸ h.congr rfl rfl rfl

theorem Post.then {α β : Type} {m : M α} {k : α → M β} {Q : β → State → Prop}
    (h : ∀ a u, Post (k a) Q u) : Post (m >>= k) Q s :=
  Wp.seq (R := fun _ _ => True) (Wp.intro (fun _ _ _ => trivial) fun _ _ _ => trivial)
    fun a u _ => h a u

theorem allocateEpilog_shut (hr : r.protectAllocList = true) :
    Post (allocateEpilog env p r) (fun _ t => Shut env t) s := by
  unfold allocateEpilog
  rw [hr]
  refine Wp.seq closeAllocList_shut fun _ u hu => Wp.ite (fun _ => ?_) fun _ => hu
  exact Wp.seq (storeRange_shut hu) fun _ _ h => h

theorem allocateWith_shut (hr : r.protectAllocList = true) (h : Shut env s ∨ r.userSize ≠ 0) :
    Post (allocateWith env grow r) (fun _ t => Shut env t) s := by
  have serve : ∀ n al u, Post (allocateServe env grow n al r) (fun _ t => Shut env t) u :=
    fun n al u => Post.then fun _ _ => Post.then fun _ _ => allocateEpilog_shut hr
  refine Wp.bind_iff.mpr (Wp.get_iff.mpr (Wp.ite (fun _ => Wp.bind_iff.mpr trivial) fun _ => ?_))
  refine Wp.bind_iff.mpr (modifyBook_wp.mpr (Wp.ite (fun h0 => ?_) fun _ => ?_))
  · have hs := h.resolve_right (not_not.mpr h0)
    split
    · trivial
    · exact hs.congr rfl rfl rfl
    · exact serve _ _ _
    · exact hs.congr rfl rfl rfl
  · exact Wp.ite (fun _ => serve _ _ _) fun _ => trivial

theorem deallocate_shut (h : Shut env s) :
    Post (deallocate env address true allocator site) (fun _ t => Shut env t) s := by
  refine Wp.bind_iff.mpr (Wp.get_iff.mpr (Wp.ite (fun _ => Wp.bind_iff.mpr trivial) fun _ => ?_))
  refine Wp.ite (fun _ => h) fun _ => Post.then fun _ _ => Post.then fun _ _ => ?_
  exact Post.then fun _ _ => Post.then fun _ _ => closeAllocList_shut

theorem dupString_shut (h : Shut env s) :
    Post (dupString env str site) (fun _ t => Shut env t) s := by
  refine Wp.seq strlen_post ?_
  rintro n _ ⟨-, rfl⟩
  refine Wp.bind_iff.mpr (Wp.get_iff.mpr (Wp.seq (allocateWith_shut rfl (Or.inl h)) fun p u hu => ?_))
  refine Wp.ite (fun _ => hu) fun _ => Wp.bind_iff.mpr (touch_wp (fun _ => ?_) fun _ => trivial)
  refine Wp.bind_iff.mpr (touch_wp (fun _ => ?_) fun _ => trivial)
  refine Wp.ite (fun _ => trivial) fun _ => Wp.bind_iff.mpr (Wp.bind_iff.mpr (Wp.get_iff.mpr ?_))
  exact (storeRange_shut hu).post fun _ _ h => h

theorem dumaInit_shut (h : s.initDone = true → Shut env s) :
    Post (dumaInit env settings) (fun _ t => Shut env t) s := by
  refine Wp.bind_iff.mpr (Wp.get_iff.mpr (Wp.ite h fun _ => Post.then fun _ u => ?_))
  have htest : (settings.tls.mallocRequest 123 Site.unknown).userSize ≠ 0 :=
    show 123 ≠ 0 by decide
  refine Wp.seq (allocateWith_shut rfl (Or.inr htest)) fun p u hu => ?_
  refine Wp.bind_iff.mpr (Wp.get_iff.mpr (Wp.ite (fun _ => Wp.bind_iff.mpr trivial) fun _ => ?_))
  refine Wp.seq (deallocate_shut hu) fun _ v hv => Wp.bind_iff.mpr (Wp.get_iff.mpr ?_)
  exact Wp.ite (fun _ => Wp.bind_iff.mpr trivial) fun _ => hv.congr rfl rfl rfl

/-- Without an explicit initialisation the start of the process closes the list. -/
theorem boot_shut (hx : env.explicitInit = false) :
    Post (boot env settings) (fun _ t => Shut env t) (State.pristine env) := by
  refine Wp.seq construct_wp fun _ s₀ h₀ => Wp.ite (fun h => by simp [hx] at h) fun _ => ?_
  exact dumaInit_shut fun h => by rw [h₀.initDone] at h; cases h

variable (hT : Tidy env s) (h : Shut env s)
include hT h

theorem allocate_shut {f : State → Request} (hr : (f s).protectAllocList = true) :
    Post (do
      initOnDemand env settings
      allocate env (f (← get)) : M ℕ) (fun _ t => Shut env t) s :=
  demand_post hT (Wp.bind_iff.mpr (Wp.get_iff.mpr (allocateWith_shut hr (Or.inl h))))

theorem Call.exec_shut : Post (c.exec env settings) (fun _ t => Shut env t) s := by
  have unit : ∀ {α : Type} {m : M α}, Post m (fun _ t => Shut env t) s →
      Post (do let _ ← m; pure 0 : M ℕ) (fun _ t => Shut env t) s :=
    fun hm => Wp.seq hm fun _ _ h => h
  cases c with
  | malloc size site => exact allocate_shut (f := fun s => s.tls.mallocRequest size site) hT h rfl
  | calloc nelem elsize site =>
    exact allocate_shut (f := fun s => s.tls.callocRequest nelem elsize site) hT h rfl
  | memalign alignment size site =>
    exact allocate_shut (f := fun s => s.tls.memalignRequest alignment size site) hT h rfl
  | valloc size site => exact allocate_shut (f := fun s => s.tls.vallocRequest env size site) hT h rfl
  | new size allocator site =>
    exact allocate_shut (f := fun s => s.tls.newRequest size allocator site) hT h rfl
  | posixMemalign alignment size site =>
    refine Wp.seq (R := fun _ t => Shut env t) ?_ fun v t ht => by cases v <;> exact ht
    refine Wp.ite (fun _ => h) fun _ => demand_post hT (Wp.bind_iff.mpr (Wp.get_iff.mpr ?_))
    refine Wp.seq (allocateWith_shut rfl (Or.inl h)) fun p t ht => ?_
    exact Wp.ite (fun _ => ht) fun _ => ht
  | strdup str site => exact demand_post hT (dupString_shut h)
  | realloc oldBuffer newSize site =>
    refine demand_post hT (Post.then fun _ _ => ?_)
    have close : ∀ p u, Post (do
        closeAllocList env
        pure p : M ℕ) (fun _ t => Shut env t) u := fun _ _ =>
      Wp.seq closeAllocList_shut fun _ _ h => h
    exact Wp.ite (fun _ => Post.then fun _ _ => Post.then fun _ _ => close _ _) fun _ =>
      Wp.ite (fun _ => Post.then fun _ _ => close _ _) fun _ => Post.then fun _ _ => close _ _
  | free baseAdr site => exact unit (demand_post hT (deallocate_shut h))
  | delete ptr allocator site => exact unit (deallocate_shut h)
  | check address =>
    refine unit (Wp.ite (fun _ => h) fun _ => Post.then fun _ _ => Post.then fun _ _ => ?_)
    exact Post.then fun _ _ => closeAllocList_shut
  | checkAll => exact unit (Post.then fun _ _ => Post.then fun _ _ => closeAllocList_shut)
  | mallocUsableSize ptr =>
    refine unit (Wp.bind_iff.mpr (Wp.get_iff.mpr (Wp.ite (fun _ => h) fun _ => ?_)))
    refine Wp.ite (fun _ => Wp.bind_iff.mpr trivial) fun _ => ?_
    refine Wp.bind_iff.mpr (mprotect_wp (fun hok => ?_) fun _ => trivial)
    refine Wp.seq slotForUserAddress_post ?_
    rintro v t ⟨rfl, ht⟩
    subst ht
    cases findSlot (·.userAddress == ptr) _ with
    | none => trivial
    | some v => exact Wp.bind_iff.mpr (mprotect_wp (fun _ => setList_shut hok.dvd) fun _ => trivial)
  | delFrame =>
    refine unit (Post.then fun _ _ => Post.then fun _ _ => Post.then fun _ _ => ?_)
    exact Wp.seq closeAllocList_shut fun _ _ h => h
  | write lo hi f => exact unit (storeRange_shut h)
  | set tls => exact h.congr rfl rfl rfl
  | init settings => exact unit (dumaInit_shut fun _ => h)

end Shut

section Depth

variable (hx : env.explicitInit = false)
include hx

theorem State.opened_depth (s : State) : (s.opened env).book.semDepth = s.book.semDepth + 1 :=
  if_neg (by simp [hx])

theorem State.closed_depth (s : State) : (s.closed env).book.semDepth = s.book.semDepth - 1 :=
  if_neg (by simp [hx])

theorem State.left_depth {b : Bool} {u : State} (h : Same (s.entered env b) u) :
    (u.left env b).book.semDepth = s.book.semDepth := by
  have hd := h.semDepth
  cases b with
  | false => exact hd
  | true =>
    rw [State.left, if_pos rfl, State.closed_depth hx, hd]
    change (s.opened env).book.semDepth - 1 = _
    rw [State.opened_depth hx, Nat.add_sub_cancel]

omit hx in
theorem State.filled_depth : (s.filled r p).book.semDepth = s.book.semDepth := by
  unfold State.filled
  split <;> rfl

theorem Served'.depth (h : Served' env r s p t) : t.book.semDepth = s.book.semDepth := by
  cases h with
  | null hb _ _ ht => exact ht ▸ hb.semDepth
  | @served b u hb h ht =>
    rw [ht, State.filled_depth, State.left_depth hx (h.same within_inners)]
    exact hb.semDepth

theorem Deallocated.depth {b : Bool} (h : Deallocated env address b allocator site s t) :
    t.book.semDepth = s.book.semDepth := by
  cases h with
  | null _ ht => rw [ht]
  | freed _ h ht => rw [ht, State.left_depth hx h.same]

theorem Dupped.depth (h : Dupped env str site s p t) : t.book.semDepth = s.book.semDepth := by
  cases h with
  | failed _ h => exact h.depth hx
  | done _ h =>
    have := h.depth hx
    exact this

theorem Copies.depth (h : Copies env copies s t) : t.book.semDepth = s.book.semDepth := by
  induction h with
  | nil => rfl
  | cons h _ ih => exact ih.trans (h.depth hx)

theorem Initialised.depth {u v w' : State} (h : Initialised env settings s p u v w' t) :
    t.book.semDepth = s.book.semDepth := by
  have h1 := h.copies.depth hx
  have h2 := h.served.depth hx
  have h3 := h.freed.depth hx
  rw [h.eq]
  exact h3.trans (h2.trans h1)

omit hx in
theorem State.copied_depth {oldSize : ℕ} :
    (s.copied p oldBuffer oldSize newSize).book.semDepth = s.book.semDepth := by
  unfold State.copied
  split <;> rfl

theorem Realloced.depth (h : Realloced env oldBuffer newSize site s p t) :
    t.book.semDepth = s.book.semDepth := by
  cases h with
  | new _ h => exact h.depth hx
  | free _ _ _ h => exact h.depth hx
  | move _ _ h =>
    cases h with
    | failed h => exact h.depth hx
    | done h _ _ _ hd => rw [hd.depth hx, State.copied_depth, h.depth hx]

theorem State.closed_opened_depth (s : State) :
    ((s.opened env).closed env).book.semDepth = s.book.semDepth := by
  rw [State.closed_depth hx, State.opened_depth hx, Nat.add_sub_cancel]

theorem Call.exec_depth (hc : c.Public) (hT : Tidy env s) :
    Post (c.exec env settings) (fun _ t => t.book.semDepth = s.book.semDepth) s := by
  cases c with
  | malloc size site => exact (malloc_post hT).post fun _ _ h => h.depth hx
  | calloc nelem elsize site => exact (calloc_post hT).post fun _ _ h => h.depth hx
  | memalign alignment size site => exact (memalign_post hT).post fun _ _ h => h.depth hx
  | posixMemalign alignment size site =>
    refine Wp.seq (posixMemalign_post hT) fun v t h => ?_
    have : t.book.semDepth = s.book.semDepth := by
      rcases h with ⟨-, rfl⟩ | ⟨p, h, -⟩
      exacts [rfl, h.depth hx]
    cases v <;> exact this
  | valloc size site => exact (valloc_post hT).post fun _ _ h => h.depth hx
  | strdup str site => exact (strdup_post hT).post fun _ _ h => h.depth hx
  | new size allocator site => exact (newOperator_post hT hc).post fun _ _ h => h.depth hx
  | realloc oldBuffer newSize site =>
    refine (realloc_post hT).post fun p t h => ?_
    obtain ⟨u, h, rfl⟩ := h
    rw [State.closed_depth hx, h.depth hx, State.opened_depth hx, Nat.add_sub_cancel]
  | free baseAdr site => exact Wp.seq (free_post hT) fun _ _ h => h.depth hx
  | delete ptr allocator site => exact Wp.seq deallocate_post fun _ _ h => h.depth hx
  | check address =>
    refine Wp.seq check_post ?_
    rintro _ t (rfl | rfl)
    exacts [rfl, State.closed_opened_depth hx s]
  | checkAll =>
    refine Wp.seq checkAll_post ?_
    rintro _ t rfl
    exact State.closed_opened_depth hx s
  | mallocUsableSize ptr =>
    refine Wp.seq mallocUsableSize_post ?_
    rintro _ t (rfl | rfl) <;> rfl
  | delFrame =>
    refine Wp.seq delFrame_post ?_
    rintro _ t ⟨-, rfl⟩
    exact State.closed_opened_depth hx s
  | write lo hi f =>
    refine Wp.seq storeRange_post ?_
    rintro _ t rfl
    rfl
  | set tls => rfl
  | init settings =>
    refine Wp.seq (dumaInit_post hT) ?_
    rintro _ t (⟨-, rfl⟩ | ⟨-, q, u, v, w, h⟩)
    exacts [rfl, h.depth hx]

end Depth

section Reach

theorem Reach.shut (hx : env.explicitInit = false)
    (h : Reach env settings (fun _ c => c.Public) w) : Shut env w.st := by
  induction h with
  | start h => exact (boot_shut hx).returns h
  | step hw _ h ih =>
    cases h with
    | intro h => exact (Call.exec_shut hw.tidy ih).returns h

/-- A call that returns leaves the list inaccessible and the lock held as often as before. -/
theorem call_closes_list (hx : env.explicitInit = false)
    (h : Reach env settings (fun _ c => c.Public) w) (hc : c.Public)
    (hr : c.exec env settings w.st = .ok p t) :
    Shut env t ∧ t.book.semDepth = w.st.book.semDepth :=
  ⟨(Call.exec_shut h.tidy (h.shut hx)).returns hr, (Call.exec_depth hx hc h.tidy).returns hr⟩

theorem call_closes_list_sample : ∃ (w : World) (p : ℕ) (t : State),
    (Call.malloc 1 Site.unknown).exec Env.sample (Settings.sample (-1) (-1)) w.st = .ok p t ∧
      Shut Env.sample t ∧ t.book.semDepth = w.st.book.semDepth := by
  obtain ⟨w, p, t, hw, -, hr⟩ := exists_call (Settings.sample (-1) (-1)) []
    (.malloc 1 Site.unknown) (fun _ => true) (by decide +kernel)
  have hc : (Call.malloc 1 Site.unknown).Public := trivial
  exact ⟨w, p, t, hr, call_closes_list rfl (hw.mono _ _ fun _ _ hc => hc.public) hc hr⟩

end Reach

end Duma

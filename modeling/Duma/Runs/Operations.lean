import Duma.Refine.Ticks
import Duma.Runs.Accept

/-! # The operations of a call

Every call that returns is a run of operations that reach the counter of the periodic check. While
they do, the list is open and the blocks that the program had at the call are there.
-/

namespace Duma

variable {env : Env} {settings : Settings} {s t u v e : State} {w w' : World} {c : Call}
  {r : Request} {site : Site} {allocator : Allocator} {i k p q m n str : ℕ} {sl new : Slot}
  {T : State → Prop} {z : ℤ}

section Inside

/-- In `u`, inside a call made in `s`, the list is open and the blocks that the program had are
there. -/
structure Inside (env : Env) (s u : State) : Prop where
  ready : Ready env u
  cfg : u.cfg = s.cfg
  slot : ∀ ⦃k : ℕ⦄ ⦃sl : Slot⦄, s.slots[k]? = some sl → sl.IsUser → u.slots[k]? = some sl
  mem : ∀ ⦃k : ℕ⦄ ⦃sl : Slot⦄ ⦃x : ℕ⦄, s.slots[k]? = some sl → sl.IsUser → sl.Owns x →
    u.mem x = s.mem x

theorem Safe.inside (h : Safe env s) (hs : Silents env (fun _ => False) s e) (ho : Open env e)
    (ht : Turn env e u) : Inside env s u := by
  have hc := Silents.calm (fun _ => False.elim) h.core hs
  have hk := ht.kept hc.core
  have hr : Ready env e := ⟨hc.core, ho, hc.keeps.live h.core h.live⟩
  have hkeeps := hc.keeps.trans hk.keeps
  exact ⟨hr.kept hk, hk.same.cfg.trans hc.cfg, hkeeps.slot, hkeeps.mem⟩

theorem Safe.open_entered (h : Safe env s) {b : Bool} (ho : b = false → Open env s) {d : Book} :
    Open env (State.entered env b { s with book := d }) := by
  have he : Entry env (fun _ => False) b { s with book := d } :=
    ⟨⟨fun _ => False.elim, h.core.of_book, h.live⟩, ho⟩
  exact he.pre.ready.open

/-- The operations that a call made in `s` starts in `t`, with the list open or about to be. -/
structure Starts (env : Env) (b : Bool) (s t : State) : Prop where
  safe : Safe env s
  silents : Silents env (fun _ => False) s t
  «open» : b = false → Open env t

variable {B : Prop} {b : Bool}

theorem allocate_inside (ht : Tidy env t) (hB : B → Starts env r.protectAllocList s t) :
    Post (allocate env r)
      (fun _ u => Timed env (fun u => B → Inside env s u) (t.settles r) t u) t := by
  refine allocate_timed ht fun b u hq hu hb => ?_
  obtain ⟨h, hs, ho⟩ := hB hb
  refine h.inside ?_ ((h.silents (fun _ => False.elim) hs).open_entered ho) hu
  exact (hs.trans (hq.silents : Silents env (fun _ => False) t _)).trans silents_entered

theorem deallocate_inside (hB : B → Starts env b s t) :
    Post (deallocate env p b allocator site)
      (fun _ u => Timed env (fun u => B → Inside env s u) 0 t u) t := by
  refine deallocate_timed fun _ _ hb => ?_
  obtain ⟨h, hs, ho⟩ := hB hb
  refine h.inside (hs.trans silents_entered) ?_ (.inner .refl)
  exact (h.silents (fun _ => False.elim) hs).open_entered (d := t.book) ho

theorem Provided.inside (hP : Provided env r t q v i new) (hs : Starts env false s t)
    (ho : Open env v) (hcfg : v.cfg = t.cfg) (hm : r.userSize = m) :
    Inside env s (v.copied q p n m) := by
  have hc := Silents.calm (fun _ => False.elim) hs.safe.core hs.silents
  have hopen : Open env (v.copied q p n m) := by
    unfold State.copied
    split
    exacts [ho, ho]
  have hcopied : (v.copied q p n m).cfg = v.cfg := by
    unfold State.copied
    split <;> rfl
  refine ⟨⟨hP.safe.copied.core, hopen, hP.safe.copied.live⟩, hcopied.trans (hcfg.trans hc.cfg),
    fun k sl hk hu => ?_, fun k sl x hk hu hx => ?_⟩
  · rw [State.copied_slots]
    exact (hP.others (hc.keeps.slot hk hu) hu).1
  · have ht := hc.keeps.slot hk hu
    obtain ⟨hv, hmem, -⟩ := hP.others ht hu
    rw [State.copied_mem, if_neg, hmem x hx, hc.keeps.mem hk hu hx]
    rintro ⟨h1, h2⟩
    have hin : new.InBlock x := ⟨by rw [hP.addr]; exact h1, by rw [hP.addr, hP.userSize, hm]; exact h2⟩
    have hown := hP.placed.owns_of_live hP.region (hP.placed.live_of_inBlock hP.region hin)
    obtain rfl := hP.safe.core.eq_of_owns hv hP.slot hx hown
    exact hP.fresh sl ht hu

theorem reallocCopy_inside (ht : Tidy env t) (hm : m ≠ 0) (hB : B → Starts env false s t ∧
      t.Held env ∧ t.Serves env (Served env) (t.tls.reallocRequest m site)) :
    Post (reallocCopy env p m site) (fun _ u => Timed env (fun u => B → Inside env s u)
      (t.settles (t.tls.reallocRequest m site)) t u) t := by
  have huser : (t.tls.reallocRequest m site).allocator.type ≠ .internal :=
    show AllocType.malloc ≠ .internal by decide
  refine Wp.bind_iff.mpr (Wp.get_iff.mpr (Wp.seq (((allocate_post huser ht).and
    (allocate_inside ht fun hb => (hB hb).1)).mono (fun _ _ => id) fun _ _ _ => trivial) ?_))
  rintro q v ⟨hs, hv⟩
  refine Wp.ite (fun _ => hv) fun hq => Wp.seq slotForUserAddress_post ?_
  rintro _ _ ⟨rfl, rfl⟩
  rename_i v
  cases findSlot (·.userAddress == p) v.slots with
  | none => exact trivial
  | some f =>
    obtain ⟨i, sl⟩ := f
    have finish : ∀ x, x = v.copied q p sl.userSize m → Post (do
        deallocate env p false .realloc site
        pure q) (fun _ u => Timed env (fun u => B → Inside env s u)
          (t.settles (t.tls.reallocRequest m site)) t u) x := by
      rintro _ rfl
      have hlevel : (v.copied q p sl.userSize m).view tickView = v.view tickView := by
        unfold State.copied
        split <;> rfl
      refine Wp.seq (deallocate_timed (T := fun u => B → Inside env s u) (b := false)
        fun _ _ hb => ?_) fun _ u hu => by simpa using (hv.level hlevel).trans hu
      obtain ⟨hst, hH, hS⟩ := hB hb
      have hts := hst.safe.silents (fun _ => False.elim) hst.silents
      obtain ⟨j, new, hP⟩ := hs.provided hts hS huser hq (Or.inl hm)
      exact hP.inside hst (hs.open hts hS rfl (hst.open rfl) hH).1 hs.cfg rfl
    refine Wp.ite (fun hlt => Wp.seq memcpy_post ?_) fun hlt => Wp.seq memcpy_post ?_
    · rintro _ _ ⟨rfl, -⟩
      refine Wp.seq storeRange_post ?_
      rintro _ _ rfl
      exact finish _ (by rw [State.copied, if_pos hlt])
    · rintro _ _ ⟨rfl, -⟩
      exact finish _ (by rw [State.copied, if_neg hlt])

end Inside

section Calls

/-- How many of the operations of a call are settled before they reach the counter. -/
def Call.settles (env : Env) (s : State) (c : Call) : ℤ :=
  match c with
  | .posixMemalign alignment size site =>
    if alignment &&& Word.sub alignment 1 ≠ 0 ∨ alignment < 8 then 0
    else s.settles (s.tls.posixMemalignRequest alignment size site)
  | c =>
    match c.request env s with
    | none => 0
    | some r => s.settles r

/-- The operations of a call: those that reach the counter do so in the states `l`. -/
structure Logged (env : Env) (c : Call) (s : State) (l : List State) (t : State) : Prop where
  ticks : Ticks env s l t
  operations : t.operations = s.operations + l.length + c.settles env s
  inside : Safe env s → c.Proper env s → ∀ u ∈ l, Inside env s u

theorem Timed.logged (h : Timed env (fun u => Safe env s ∧ c.Proper env s → Inside env s u) z s t)
    (hz : c.settles env s = z) : ∃ l, Logged env c s l t := by
  obtain ⟨l, hl, hT, hn⟩ := h
  exact ⟨l, hl, hz ▸ hn, fun hs hp u hu => hT u hu ⟨hs, hp⟩⟩

theorem realloc_timed (hT : Tidy env s) : Post (realloc env settings p n site)
    (fun _ t => Timed env (fun u => Safe env s ∧ (Call.realloc p n site).Proper env s →
      Inside env s u) ((Call.realloc p n site).settles env s) s t) s := by
  have hsil : Silents env (fun _ => False) s (s.opened env) := silents_opened
  have hTo : Tidy env (s.opened env) := hT.silents hsil
  have hB : Safe env s ∧ (Call.realloc p n site).Proper env s →
      Starts env false s (s.opened env) := by
    rintro ⟨hs, -⟩
    have hr : Resting env (fun _ => False) s := ⟨fun _ => False.elim, hs.core, hs.live⟩
    exact ⟨hs, hsil, fun _ => hr.opened.ready.open⟩
  have finish : ∀ (q : ℕ) (u : State), Timed env
      (fun u => Safe env s ∧ (Call.realloc p n site).Proper env s → Inside env s u)
      ((Call.realloc p n site).settles env s) (s.opened env) u → Post (do
        closeAllocList env
        pure q) (fun _ t => Timed env (fun u => Safe env s ∧ (Call.realloc p n site).Proper env s →
          Inside env s u) ((Call.realloc p n site).settles env s) s t) u := by
    intro q u hu
    refine Wp.seq closeAllocList_post ?_
    rintro _ _ rfl
    have := (timed_of_view rfl : Timed env (fun u => Safe env s ∧
      (Call.realloc p n site).Proper env s → Inside env s u) 0 s (s.opened env)).trans hu
    rw [zero_add] at this
    exact this.level rfl
  refine demand_post hT (Wp.seq openAllocList_post ?_)
  rintro _ _ rfl
  refine Wp.ite (fun h0 => Wp.bind_iff.mpr (Wp.get_iff.mpr ?_)) fun h0 => Wp.ite (fun hn => ?_)
    fun hn => ?_
  · refine Wp.seq (allocate_inside hTo hB) fun q u hu => finish q u ?_
    have hz : (Call.realloc p n site).settles env s =
        (s.opened env).settles ((s.opened env).tls.reallocNewRequest n site) := by
      simp only [Call.settles, Call.request, if_pos h0]
      rfl
    rw [hz]
    exact hu
  · refine Wp.seq (deallocate_inside hB) fun _ u hu => finish 0 u ?_
    have hz : (Call.realloc p n site).settles env s = 0 := by
      simp only [Call.settles, Call.request, if_neg h0, if_pos hn]
    rw [hz]
    exact hu
  · have hr : (Call.realloc p n site).request env s =
        some ((s.opened env).tls.reallocRequest n site) := by
      simp only [Call.request, if_neg h0, if_neg hn]
      rfl
    refine Wp.seq (reallocCopy_inside hTo hn fun hb => ⟨hB hb, State.opened_held s, ?_⟩)
      fun q u hu => finish q u ?_
    · have : (s.opened env).Serves env (Served env) ((s.opened env).tls.reallocRequest n site) :=
        hb.2.serves (Or.inl hr)
      exact this
    · have hz : (Call.realloc p n site).settles env s =
          (s.opened env).settles ((s.opened env).tls.reallocRequest n site) := by
        simp only [Call.settles, hr]
        rfl
      rw [hz]
      exact hu

/-- Every call that returns is a run of operations. -/
theorem Call.exec_logged (hT : Tidy env s)
    (hi : ∀ settings, c = .init settings → s.initDone = true) :
    Post (c.exec env settings) (fun _ t => ∃ l, Logged env c s l t) s := by
  have serve : ∀ {r : Request} {t : State}, c.settles env s = s.settles r →
      Timed env (fun u => Safe env s ∧ c.Proper env s → Inside env s u) (s.settles r) s t →
        ∃ l, Logged env c s l t := fun hr ht => ht.logged hr
  have alloc : ∀ (r : Request), r.protectAllocList = true → Post (allocate env r)
      (fun _ t => Timed env (fun u => Safe env s ∧ c.Proper env s → Inside env s u)
        (s.settles r) s t) s :=
    fun r hr => allocate_inside hT fun hs => ⟨hs.1, .refl, fun h => by rw [hr] at h; cases h⟩
  have level : ∀ {t : State}, c.settles env s = 0 → t.view tickView = s.view tickView →
      ∃ l, Logged env c s l t := fun hz hv => (timed_of_view hv).logged hz
  cases c with
  | malloc size site =>
    exact demand_post hT (Wp.bind_iff.mpr (Wp.get_iff.mpr ((alloc _ rfl).post fun _ _ =>
      serve rfl)))
  | calloc nelem elsize site =>
    exact demand_post hT (Wp.bind_iff.mpr (Wp.get_iff.mpr ((alloc _ rfl).post fun _ _ =>
      serve rfl)))
  | memalign alignment size site =>
    exact demand_post hT (Wp.bind_iff.mpr (Wp.get_iff.mpr ((alloc _ rfl).post fun _ _ =>
      serve rfl)))
  | valloc size site =>
    exact demand_post hT (Wp.bind_iff.mpr (Wp.get_iff.mpr ((alloc _ rfl).post fun _ _ =>
      serve rfl)))
  | new size allocator site =>
    exact demand_post hT (Wp.bind_iff.mpr (Wp.get_iff.mpr ((alloc _ rfl).post fun _ _ =>
      serve rfl)))
  | posixMemalign alignment size site =>
    refine Wp.seq (R := fun _ t => ∃ l, Logged env (.posixMemalign alignment size site) s l t)
      (Wp.ite (fun h => level (if_pos h) rfl) fun h => ?_) fun v t hv => ?_
    · refine demand_post hT (Wp.bind_iff.mpr (Wp.get_iff.mpr (Wp.seq (alloc _ rfl) fun p t ht => ?_)))
      exact Wp.ite (fun _ => serve (if_neg h) ht) fun _ => serve (if_neg h) ht
    · cases v <;> exact hv
  | strdup str site =>
    refine demand_post hT (Wp.seq strlen_post ?_)
    rintro n _ ⟨hn, rfl⟩
    rename_i s
    have hr : (Call.strdup str site).settles env s = s.settles (s.tls.strdupRequest n site) := by
      unfold Call.settles
      dsimp only
      rw [strdup_request hn]
    refine Wp.bind_iff.mpr (Wp.get_iff.mpr (Wp.seq (alloc _ rfl) fun p t ht => ?_))
    refine Wp.ite (fun _ => serve hr ht) fun _ => ?_
    refine Wp.bind_iff.mpr (touch_wp (fun _ => ?_) fun _ => trivial)
    refine Wp.bind_iff.mpr (touch_wp (fun _ => ?_) fun _ => trivial)
    refine Wp.ite (fun _ => trivial) fun _ => ?_
    refine Wp.bind_iff.mpr (Wp.bind_iff.mpr (Wp.get_iff.mpr (storeRange_post.post ?_)))
    rintro _ _ rfl
    exact serve hr (ht.level rfl)
  | realloc oldBuffer newSize site => exact (realloc_timed hT).post fun _ _ ht => ht.logged rfl
  | free baseAdr site =>
    refine Wp.seq (demand_post hT (deallocate_inside fun hb => ⟨hb.1, .refl, nofun⟩))
      fun _ t ht => ht.logged rfl
  | delete ptr allocator site =>
    exact Wp.seq (deallocate_inside fun hb => ⟨hb.1, .refl, nofun⟩) fun _ t ht => ht.logged rfl
  | check address =>
    refine Wp.seq check_post ?_
    rintro _ t (rfl | rfl)
    exacts [level rfl rfl, level rfl rfl]
  | checkAll =>
    refine Wp.seq checkAll_post ?_
    rintro _ t rfl
    exact level rfl rfl
  | mallocUsableSize ptr =>
    refine Wp.seq mallocUsableSize_post ?_
    rintro _ t (rfl | rfl)
    exacts [level rfl rfl, level rfl rfl]
  | delFrame =>
    refine Wp.seq delFrame_post ?_
    rintro _ t ⟨-, rfl⟩
    exact level rfl rfl
  | write lo hi f =>
    refine Wp.seq storeRange_post ?_
    rintro _ t rfl
    exact level rfl rfl
  | set tls => exact level rfl rfl
  | init settings =>
    refine Wp.seq (dumaInit_post hT) ?_
    rintro _ t (⟨-, rfl⟩ | ⟨hno, -⟩)
    · exact level rfl rfl
    · rw [hi settings rfl] at hno
      cases hno

end Calls

end Duma

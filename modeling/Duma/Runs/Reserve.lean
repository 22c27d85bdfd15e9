import Duma.Refine.Reserve
import Duma.Runs.Counters
import Duma.Runs.Stops

/-! # The reserve over runs

A call takes at most two slots from the reserve, and none if it moves to a longer list. So the
reserve lasts as long as the list is moved whenever fewer than five slots are left: an attempt that
fails earlier is made good by the next one.
-/

namespace Duma

variable {env : Env} {settings : Settings} {w w' : World} {s t u : State} {c : Call} {e : Stop}
  {r : Request} {site : Site} {m p : ℕ} {L : Prop}

/-- At most two slots of the reserve are taken, and none where `L` holds. -/
def Costs (L : Prop) (s t : State) : Prop := s.spare - 2 ≤ t.spare ∧ (L → s.spare ≤ t.spare)

theorem Costs.of_le (h : s.spare ≤ t.spare) : Costs L s t := ⟨by omega, fun _ => h⟩

theorem Costs.trans_le (h : Costs L s t) (h' : t.spare ≤ u.spare) : Costs L s u :=
  ⟨h.1.trans h', fun hL => (h.2 hL).trans h'⟩

theorem Costs.congr (h : Costs L s t) (hs : t.slots = u.slots) (ht : t.trace = u.trace) :
    Costs L s u :=
  h.trans_le (State.spare_congr hs (congrArg drops ht)).le

theorem Costs.of_congr (hs : t.slots = s.slots) (ht : t.trace = s.trace) : Costs L s t :=
  .of_le (State.spare_congr hs (congrArg drops ht)).ge

def Call.Lengthens (env : Env) (s : State) (c : Call) : Prop :=
  ∀ r, c.request env s = some r → (s.entered env (!r.protectAllocList)).Lengthens env r

section Calls

variable (hs : Safe env s)
include hs

theorem reallocCopy_costs : Post (reallocCopy env p m site)
    (fun _ t => Costs (s.Lengthens env (s.tls.reallocRequest m site)) s t) s := by
  have huser : (s.tls.reallocRequest m site).allocator.type ≠ .internal :=
    show AllocType.malloc ≠ .internal by decide
  refine Wp.bind_iff.mpr (Wp.get_iff.mpr (Wp.seq (R := fun _ t =>
    Costs (s.Lengthens env (s.tls.reallocRequest m site)) s t ∧ Tidy env t) ?_ ?_))
  · exact ((allocate_spare hs).and (allocate_post huser hs.tidy)).mono
      (fun _ t ht => ⟨ht.1, ht.2.tidy hs.tidy⟩) fun _ _ _ => trivial
  rintro a t ⟨hcost, hT⟩
  refine Wp.ite (fun _ => hcost) fun _ => ?_
  have finish : ∀ {n : ℕ} {x : State}, x = t.copied a p n m → Post (do
      deallocate env p false .realloc site
      pure a) (fun _ u => Costs (s.Lengthens env (s.tls.reallocRequest m site)) s u) x := by
    rintro n _ rfl
    have hsame : (t.copied a p n m).slots = t.slots ∧ (t.copied a p n m).trace = t.trace ∧
        Tidy env (t.copied a p n m) := by
      unfold State.copied
      split
      exacts [⟨rfl, rfl, hT.congr rfl rfl rfl⟩, ⟨rfl, rfl, hT.congr rfl rfl rfl⟩]
    refine Wp.seq deallocate_post fun _ u hu => ?_
    exact (hcost.congr hsame.1.symm hsame.2.1.symm).trans_le (hu.spare hsame.2.2).1
  refine Wp.seq slotForUserAddress_post ?_
  rintro w u ⟨rfl, hu⟩
  subst hu
  cases findSlot (·.userAddress == p) u.slots with
  | none => exact trivial
  | some v =>
    refine Wp.ite (fun hlt => Wp.seq memcpy_post ?_) fun hlt => Wp.seq memcpy_post ?_
    · rintro _ _ ⟨rfl, -⟩
      refine Wp.seq storeRange_post ?_
      rintro _ _ rfl
      exact finish (by rw [State.copied, if_pos hlt])
    · rintro _ _ ⟨rfl, -⟩
      exact finish (by rw [State.copied, if_neg hlt])

theorem realloc_costs : Post (realloc env settings p m site)
    (fun _ t => Costs ((Call.realloc p m site).Lengthens env s) s t) s := by
  refine demand_post hs.tidy (Wp.seq openAllocList_post ?_)
  rintro _ _ rfl
  have ho := hs.opened.1
  have close : ∀ {q : ℕ} {u : State}, Costs ((Call.realloc p m site).Lengthens env s)
      (s.opened env) u → Post (do
        closeAllocList env
        pure q) (fun _ t => Costs ((Call.realloc p m site).Lengthens env s) s t) u := by
    intro q u hu
    refine Wp.seq closeAllocList_post ?_
    rintro _ _ rfl
    exact hu.congr rfl rfl
  refine Wp.ite (fun h0 => Wp.bind_iff.mpr (Wp.get_iff.mpr ?_)) fun h0 => Wp.ite (fun hm => ?_)
    fun hm => ?_
  · have hreq : (Call.realloc p m site).request env s = some (s.tls.reallocNewRequest m site) :=
      if_pos h0
    exact Wp.seq (allocate_spare ho) fun _ u hu => close ⟨hu.1, fun hL => hu.2 (hL _ hreq)⟩
  · exact Wp.seq deallocate_post fun _ u hu => close (.of_le (hu.spare ho.tidy).1)
  · have hreq : (Call.realloc p m site).request env s = some (s.tls.reallocRequest m site) :=
      (if_neg h0).trans (if_neg hm)
    exact Wp.seq (reallocCopy_costs ho) fun _ u hu => close ⟨hu.1, fun hL => hu.2 (hL _ hreq)⟩

theorem dupString_costs {str : ℕ} : Post (dupString env str site) (fun _ t =>
    ∃ n, strlen env str s = .ok n s ∧ Costs (s.Lengthens env (s.tls.strdupRequest n site)) s t)
    s := by
  refine Wp.seq strlen_post ?_
  rintro n _ ⟨hn, rfl⟩
  refine Wp.bind_iff.mpr (Wp.get_iff.mpr (Wp.seq (allocate_spare hs) fun a t ht => ?_))
  have hcost : Costs _ _ t := ht
  refine Wp.ite (fun _ => ⟨n, hn, hcost⟩) fun _ => ?_
  refine Wp.bind_iff.mpr (touch_wp (fun _ => ?_) fun _ => trivial)
  refine Wp.bind_iff.mpr (touch_wp (fun _ => ?_) fun _ => trivial)
  refine Wp.ite (fun _ => trivial) fun _ => ?_
  refine Wp.bind_iff.mpr (Wp.bind_iff.mpr (Wp.get_iff.mpr (storeRange_post.post ?_)))
  rintro _ _ rfl
  exact ⟨n, hn, hcost.congr rfl rfl⟩

theorem Call.exec_costs (hinit : c.initSettings s = none) :
    Post (c.exec env settings) (fun _ t => Costs (c.Lengthens env s) s t) s := by
  have hT := hs.tidy
  have serve : ∀ {r : Request}, c.request env s = some r → r.protectAllocList = true →
      Post (allocate env r) (fun _ t => Costs (c.Lengthens env s) s t) s := by
    refine fun hr hp => (allocate_spare hs).post fun _ t ht => ⟨ht.1, fun hL => ht.2 ?_⟩
    have hin := hL _ hr
    rw [hp] at hin
    exact hin
  have get : ∀ {f : State → M ℕ}, Post (f s) (fun _ t => Costs (c.Lengthens env s) s t) s →
      Post (do
        initOnDemand env settings
        f (← get)) (fun _ t => Costs (c.Lengthens env s) s t) s :=
    fun hf => demand_post hT (Wp.bind_iff.mpr (Wp.get_iff.mpr hf))
  cases c with
  | malloc size site => exact get (serve (r := s.tls.mallocRequest size site) rfl rfl)
  | calloc nelem elsize site =>
    exact get (serve (r := s.tls.callocRequest nelem elsize site) rfl rfl)
  | memalign alignment size site =>
    exact get (serve (r := s.tls.memalignRequest alignment size site) rfl rfl)
  | valloc size site => exact get (serve (r := s.tls.vallocRequest env size site) rfl rfl)
  | new size allocator site =>
    exact get (serve (r := s.tls.newRequest size allocator site) rfl rfl)
  | posixMemalign alignment size site =>
    refine Wp.seq (R := fun _ t =>
      Costs ((Call.posixMemalign alignment size site).Lengthens env s) s t) ?_ ?_
    · refine Wp.ite (fun _ => .of_le le_rfl) fun _ => demand_post hT ?_
      refine Wp.bind_iff.mpr (Wp.get_iff.mpr (Wp.seq (serve
        (r := s.tls.posixMemalignRequest alignment size site) rfl rfl) fun _ t ht => ?_))
      exact Wp.ite (fun _ => ht) fun _ => ht
    · intro v t ht
      cases v <;> exact ht
  | strdup str site =>
    refine demand_post hT ((dupString_costs hs).post fun _ t ht => ?_)
    obtain ⟨n, hn, ht⟩ := ht
    exact ⟨ht.1, fun hL => ht.2 (hL _ (strdup_request hn))⟩
  | realloc oldBuffer newSize site => exact realloc_costs hs
  | free baseAdr site =>
    exact Wp.seq (free_post hT) fun _ _ ht => .of_le (ht.spare hT).1
  | delete ptr allocator site =>
    exact Wp.seq deallocate_post fun _ _ ht => .of_le (ht.spare hT).1
  | check address =>
    refine Wp.seq check_post ?_
    rintro _ t (rfl | rfl)
    exacts [.of_le le_rfl, .of_congr rfl rfl]
  | checkAll =>
    refine Wp.seq checkAll_post ?_
    rintro _ t rfl
    exact .of_congr rfl rfl
  | mallocUsableSize ptr =>
    refine Wp.seq mallocUsableSize_post ?_
    rintro _ t (rfl | rfl)
    exacts [.of_le le_rfl, .of_congr rfl rfl]
  | delFrame =>
    refine Wp.seq delFrame_post ?_
    rintro _ t ⟨-, rfl⟩
    exact .of_congr rfl rfl
  | write lo hi f =>
    refine Wp.seq storeRange_post ?_
    rintro _ t rfl
    exact .of_congr rfl rfl
  | set tls => exact .of_congr rfl rfl
  | init settings =>
    have hd : s.initDone = true := by
      by_contra hn
      rw [Call.initSettings, if_neg hn] at hinit
      cases hinit
    refine Wp.seq (dumaInit_post hT) ?_
    rintro _ t (⟨-, rfl⟩ | ⟨hn, -⟩)
    · exact .of_le le_rfl
    · rw [hd] at hn
      cases hn

end Calls

section Initialise

variable {copies : List (ℕ × Site)}

theorem Stop.ordinary.no_shortage (h : e.ordinary = true) : ¬ Shortage e := fun hs => by
  cases hs <;> cases h

theorem SlackReport.no_shortage {sl : Slot} (h : SlackReport sl e) : ¬ Shortage e := by
  rcases h with rfl | rfl <;> nofun

theorem Safe.allocate_step (hs : Safe env s) (hS : s.Serves env (Served env) r)
    (hu : r.allocator.type ≠ .internal) (ho : r.protectAllocList = true) :
    Wp (allocate env r) (fun _ t => s.spare - 2 ≤ t.spare ∧ Safe env t)
      (fun e _ => 2 ≤ s.spare → ¬ Shortage e) s := by
  refine Wp.intro (fun p t h => ⟨((allocate_spare hs).returns h).1, ?_⟩) fun e t h h2 => ?_
  · have ha : Acts env (fun _ => True) (Served env) s t :=
      ((allocate_post hu hs.tidy).returns h).acts trivial hS hu
    exact ha.safe (fun _ _ _ => id) hs
  · exact (allocate_no_shortage hs hS hu (by rw [ho]; nofun) h2).stops h

theorem Safe.dupString_step {str : ℕ} (hs : Safe env s) (hS : ∀ size < env.taskSize,
      s.Serves env (Served env) (s.tls.strdupRequest size site)) :
    Wp (dupString env str site) (fun _ t => s.spare - 2 ≤ t.spare ∧ Safe env t ∧ t.tls = s.tls)
      (fun e _ => 2 ≤ s.spare → ¬ Shortage e) s := by
  refine Wp.intro (fun p t h => ?_) fun e t h h2 => ?_
  · obtain ⟨n, -, hcost⟩ := (dupString_costs hs).returns h
    have hd := (dupString_post hs.tidy).returns h
    have ha : Acts env (fun _ => True) (Served env) s t :=
      hd.acts trivial fun size hn _ => hS size hn
    exact ⟨hcost.1, ha.safe (fun _ _ _ => id) hs, hd.tls⟩
  · refine (dupString_ends (A := fun e => ¬ Shortage e) (fun _ => Stop.ordinary.no_shortage)
      fun n hn => ?_).stops h
    exact Wp.mono (hs.allocate_step (hS n (strlen_lt hn))
      (show AllocType.malloc ≠ .internal by decide) rfl) (fun _ _ _ => trivial) fun _ _ he => he h2

theorem dupStrings_spare (hs : Safe env s) (hS : ∀ c ∈ copies, ∀ size < env.taskSize,
      s.Serves env (Served env) (s.tls.strdupRequest size c.2)) :
    Wp (dupStrings env copies) (fun _ t => s.spare - 2 * copies.length ≤ t.spare ∧ Safe env t ∧
        t.tls = s.tls)
      (fun e _ => 2 * copies.length ≤ s.spare → ¬ Shortage e) s := by
  induction copies generalizing s with
  | nil => exact ⟨by simp, hs, rfl⟩
  | cons c rest ih =>
    obtain ⟨str, site⟩ := c
    push_cast [List.length_cons]
    have hone := @Safe.dupString_step env s site str hs fun size hn =>
      hS _ List.mem_cons_self size hn
    refine Wp.seq (hone.mono (fun _ _ => id) fun _ _ he h2 => he (by omega)) ?_
    rintro _ u ⟨hle, hsu, htls⟩
    refine Wp.mono (ih hsu fun c hc size hn => ?_) (fun _ t ht => ⟨?_, ht.2.1,
      ht.2.2.trans htls⟩) fun _ _ he h2 => ?_
    · rw [State.serves_congr htls, htls]
      exact hS c (List.mem_cons_of_mem _ hc) size hn
    · have := ht.1
      omega
    · exact he (by omega)

theorem Settings.copies_length (settings : Settings) : settings.copies.length ≤ 2 := by
  unfold Settings.copies
  cases settings.mapFile <;> cases settings.outputFile <;> simp

theorem dumaInit_spare (hs : Safe env s) (hp : settings.Passes env) :
    Wp (dumaInit env settings) (fun _ t => s.spare - 6 ≤ t.spare)
      (fun e _ => 6 ≤ s.spare → ¬ Shortage e) s := by
  refine Wp.bind_iff.mpr (Wp.get_iff.mpr (Wp.ite (fun _ => ?_) fun _ => ?_))
  · exact Wp.pure_iff.mpr (by omega)
  have h2 := settings.copies_length
  have hse : Safe env (s.early settings) :=
    Acts.safe (fun _ _ _ => id) hs
      (.single (.set _ _) : Acts env (fun _ => True) (Served env) s (s.early settings))
  have he : (s.early settings).spare = s.spare := rfl
  refine Wp.seq (R := fun _ t => s.spare - 4 ≤ t.spare ∧ Safe env t ∧ t.tls = settings.tls) ?_ ?_
  · refine Wp.bind_iff.mpr (Wp.modify_iff.mpr (Wp.seq ((dupStrings_spare hse fun c hc size hn =>
      hp.serves (Or.inr ⟨c, hc, size, hn, rfl⟩) rfl).mono (fun _ _ => id) fun _ _ h h6 =>
        h (by omega)) ?_))
    rintro _ u ⟨hle, hsu, htls⟩
    refine Wp.modify_iff.mpr ⟨?_, Acts.safe (fun _ _ _ => id) hsu
      (.single (.set _ u.tls) : Acts env (fun _ => True) (Served env) u _), htls⟩
    change s.spare - 4 ≤ u.spare
    omega
  rintro _ u ⟨hle, hsu, htls⟩
  have huser : (settings.tls.mallocRequest 123 Site.unknown).allocator.type ≠ .internal :=
    show AllocType.malloc ≠ .internal by decide
  refine Wp.seq ((hsu.allocate_step (hp.serves (Or.inl rfl) htls) huser rfl).mono (fun _ _ => id)
    fun _ _ he h6 => he (by omega)) ?_
  rintro p v ⟨hlev, hsv⟩
  refine Wp.bind_iff.mpr (Wp.get_iff.mpr (Wp.ite (fun _ => Wp.bind_iff.mpr nofun) fun _ => ?_))
  have hfree : Ends (fun e => ¬ Shortage e) (deallocate env p true .free Site.unknown) v :=
    hsv.deallocate_ends (fun _ => Stop.ordinary.no_shortage) (fun _ _ _ hr => hr.no_shortage)
      (by decide) nofun
  refine Wp.seq (R := fun _ w => v.spare ≤ w.spare) (Wp.intro (fun _ w h =>
    ((deallocate_post.returns h).spare hsv.tidy).1) fun _ _ h _ => hfree.stops h) fun _ w hw => ?_
  refine Wp.bind_iff.mpr (Wp.get_iff.mpr (Wp.ite (fun _ => Wp.bind_iff.mpr nofun) fun _ => ?_))
  refine Wp.modify_iff.mpr ?_
  change s.spare - 6 ≤ w.spare
  omega

theorem Constructed.spare_ge (h : Constructed env s) : 14 ≤ s.spare := by
  have hg := h.unusedGap
  have hu := h.unUsed
  have h2 := @Env.slotsPerPage_ge env
  have hlt := h.tidy.length_lt
  have hl : s.slots.length = env.slotsPerPage := by
    rw [h.slots]
    simp only [firstSlots, List.length_cons, List.length_replicate]
    omega
  obtain ⟨n, ht⟩ := h.trace
  have hd : drops s.trace = 0 := by rw [ht]; rfl
  have hc := s.count_le_length .empty
  unfold State.unusedGap at hg
  unfold State.spare
  rw [hd] at hg ⊢
  omega

theorem boot_spare (hset : settings.Proper env) :
    Post (boot env settings) (fun _ t => 8 ≤ t.spare) (State.pristine env) := by
  refine Wp.seq construct_wp fun _ s h => ?_
  have := h.spare_ge
  refine Wp.ite (fun _ => Wp.pure_iff.mpr (by omega)) fun hx => ?_
  refine (dumaInit_spare h.safe (hset (by simpa using hx))).mono (fun _ t ht => ?_)
    fun _ _ _ => trivial
  omega

end Initialise

section Run

/-- The call finds five slots or moves to a longer list; an initialisation finds nine. -/
def Call.Backed (env : Env) (s : State) (c : Call) : Prop :=
  c.initSettings s = none ∧ (5 ≤ s.book.unUsedSlots ∨ c.Lengthens env s) ∨ 9 ≤ s.book.unUsedSlots

/-- The runs of calls with proper requests whose list is moved in time. -/
abbrev BackedRun (env : Env) (settings : Settings) : World → Prop :=
  Reach env settings fun w c => c.Proper env w.st ∧ c.Backed env w.st

theorem BackedRun.run (hw : BackedRun env settings w) : Run env settings w :=
  hw.mono _ _ fun _ _ h => h.1

theorem Run.unUsedSlots (hw : Run env settings w) (h0 : 0 ≤ w.st.spare) :
    (w.st.book.unUsedSlots : ℤ) = w.st.spare := by
  obtain ⟨h1, h2, h3⟩ := Reach.unusedGap (hw.mono _ _ fun _ _ hc => hc.1)
  exact State.unUsedSlots_eq_spare h1 h2 h3 h0

theorem Call.Proper.initialises (hc : c.Proper env s) (hi : c.initSettings s ≠ none) :
    ∃ v : Settings, c = .init v ∧ v.Passes env := by
  cases c with
  | init settings =>
    obtain ⟨v, hv⟩ := Option.ne_none_iff_exists'.mp hi
    have hp := hc.init v hv
    change (if s.initDone then none else some settings) = some v at hv
    split_ifs at hv
    exact ⟨v, congrArg Call.init (Option.some.inj hv), hp⟩
  | _ => exact absurd rfl hi

theorem Call.Backed.spare (hb : c.Backed env s) (hs : Safe env s) (hc : c.Proper env s)
    (hu : (s.book.unUsedSlots : ℤ) = s.spare) (h3 : 3 ≤ s.spare) :
    Post (c.exec env settings) (fun _ t => 3 ≤ t.spare) s := by
  by_cases hi : c.initSettings s = none
  · refine (Call.exec_costs hs hi).post fun _ t ht => ?_
    rcases hb with ⟨-, h5 | hL⟩ | h9
    · have := ht.1
      omega
    · exact h3.trans (ht.2 hL)
    · have := ht.1
      omega
  · have h9 : 9 ≤ s.book.unUsedSlots := hb.resolve_left fun h => hi h.1
    obtain ⟨v, rfl, hp⟩ := hc.initialises hi
    refine Wp.seq ((dumaInit_spare hs hp).mono (fun _ _ => id) fun _ _ _ => trivial)
      fun _ t ht => ?_
    change 3 ≤ t.spare
    omega

/-- In every backed run three slots stay in reserve. -/
theorem BackedRun.spare (hset : settings.Proper env) (hw : BackedRun env settings w) :
    3 ≤ w.st.spare := by
  induction hw with
  | start h =>
    exact le_trans (by decide) ((boot_spare hset).returns h)
  | step hw hA h ih =>
    cases h with
    | intro h =>
      have hrun := BackedRun.run hw
      exact (hA.2.spare (hrun.safe hset) hA.1 (hrun.unUsedSlots (by omega)) ih).returns h

theorem check_no_shortage : Ends (fun e => ¬ Shortage e) (check env p) s := by
  have hA : ∀ e : Stop, e.ordinary = true → ¬ Shortage e := fun _ => Stop.ordinary.no_shortage
  have hrange : ∀ {fill : UInt8} {lo hi : ℕ} {rep : Report} {u : State},
      ¬ Shortage (.abort rep) → Ends (fun e => ¬ Shortage e) (checkRange env fill lo hi rep) u :=
    fun hrep => Wp.mono checkRange_wp (fun _ _ _ => trivial) (by
      rintro e _ ⟨-, x, -, -, ⟨rfl, -⟩ | ⟨rfl, -⟩⟩
      exacts [hrep, hA _ rfl])
  refine Wp.ite (fun _ => trivial) fun _ => (openAllocList_ends hA).seq fun _ t _ => ?_
  refine Ends.seq ((slotForUserAddress_ends hA).seq fun v u _ => ?_) fun sl u _ => ?_
  · cases v with
    | none => exact Ends.seq ((readSlots_ends hA).seq fun _ _ _ => trivial) fun _ _ _ => hA _ rfl
    | some v => exact Wp.ite (fun _ => hA _ rfl) fun _ => trivial
  · refine Ends.seq (Wp.bind_iff.mpr (Wp.get_iff.mpr (Wp.ite (fun _ => trivial) fun _ => ?_)))
      fun _ _ _ => closeAllocList_ends hA
    refine Ends.seq (hrange ?_) fun _ _ _ => hrange ?_
    exacts [SlackReport.no_shortage (Or.inl rfl), SlackReport.no_shortage (Or.inr rfl)]

theorem Call.exec_no_shortage (hs : Safe env s) (hc : c.Proper env s)
    (hinit : c.initSettings s = none) (h2 : 2 ≤ s.spare) :
    Ends (fun e => ¬ Shortage e) (c.exec env settings) s := by
  refine Call.exec_ends hs (fun _ => Stop.ordinary.no_shortage) (fun _ _ _ hr => hr.no_shortage) hc
    hinit (fun _ _ => check_no_shortage) fun r hr => ?_
  obtain ⟨hin, hS, ho⟩ := hc.entered hs hr
  refine allocate_no_shortage hin hS (Call.request_user hc.public hr) ho ?_
  rwa [State.spare_entered]

/-- In every run whose list is moved to a longer one whenever a call begins with fewer than five
slots, three slots stay in reserve: `unUsedSlots` is three at least and counts empty slots alone.
No call, and no initialisation that finds nine slots, is ever stopped for want of an empty slot. -/
theorem reserve_kept (hset : settings.Proper env) (hw : BackedRun env settings w) :
    3 ≤ w.st.book.unUsedSlots ∧ w.st.book.unUsedSlots ≤ w.st.count .empty ∧
    ∀ (c : Call) (e : Stop) (t : State), c.Proper env w.st →
      (c.initSettings w.st = none ∨ 9 ≤ w.st.book.unUsedSlots) →
        c.exec env settings w.st = .error e t → ¬ Shortage e := by
  have hs := (BackedRun.run hw).safe hset
  have h3 := BackedRun.spare hset hw
  have hu := (BackedRun.run hw).unUsedSlots (by omega)
  have hle := w.st.spare_le
  refine ⟨by omega, by omega, fun c e t hc hb he => ?_⟩
  by_cases hi : c.initSettings w.st = none
  · exact (Call.exec_no_shortage hs hc hi (by omega)).stops he
  · obtain ⟨v, rfl, hp⟩ := hc.initialises hi
    have h9 := hb.resolve_left hi
    have hstop := (dumaInit_spare hs hp).mono (fun _ _ _ => trivial) fun e _ h => h (by omega)
    have hends : Ends (fun e => ¬ Shortage e) ((Call.init v).exec env settings) w.st :=
      Ends.seq hstop fun _ _ _ => trivial
    exact hends.stops he

/-- Nine blocks move the list of the sample platform once. -/
theorem reserve_kept_sample : ∃ w, BackedRun Env.sample (Settings.sample (-1) (-1)) w ∧
    Env.sample.slotsPerPage < w.st.slots.length ∧ 3 ≤ w.st.book.unUsedSlots ∧
    w.st.book.unUsedSlots ≤ w.st.count .empty := by
  obtain ⟨w, hw, hp⟩ : ∃ w, BackedRun Env.sample (Settings.sample (-1) (-1)) w ∧
      decide (Env.sample.slotsPerPage < w.st.slots.length) = true := by
    refine @exists_reach Env.sample (Settings.sample (-1) (-1)) _ (fun w c =>
      decide (c.Proper Env.sample w.st) && (c.initSettings w.st).isNone &&
        decide (5 ≤ w.st.book.unUsedSlots))
      (List.replicate 9 (.malloc 100 Site.unknown)) _ (fun w c h => ?_) (by decide +kernel)
    simp only [Bool.and_eq_true, decide_eq_true_eq, Option.isNone_iff_eq_none] at h
    exact ⟨h.1.1, Or.inl ⟨h.1.2, Or.inl h.2⟩⟩
  have h := reserve_kept (Settings.sample_proper _ _) hw
  exact ⟨w, hw, of_decide_eq_true hp, h.1, h.2.1⟩

end Run

end Duma

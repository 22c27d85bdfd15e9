import Duma.Runs.Operations

/-! # The periodic check

In runs the counter of the periodic check stays below its period, so among as many consecutive
operations as the period is long there is one that checks the no man's land of all blocks.
-/

namespace Duma

variable {env : Env} {settings : Settings} {s t u v : State} {w w' : World} {c : Call}
  {site : Site} {k str : ℕ} {sl : Slot} {T : State → Prop} {z N : ℤ} {l : List State}

section Counter

theorem checkByFreq_counter : Post (checkByFreq env) (fun _ v => v.cfg = u.cfg ∧
    v.book.checkFreqCounter =
      if 0 < u.cfg.checkFreq then
        if u.book.checkFreqCounter + 1 = u.cfg.checkFreq then 0 else u.book.checkFreqCounter + 1
      else u.book.checkFreqCounter) u := by
  refine Wp.bind_iff.mpr (Wp.get_iff.mpr (Wp.ite (fun hF => ?_) fun hF => ?_))
  · rw [if_pos hF]
    refine Wp.bind_iff.mpr (modifyBook_wp.mpr (Wp.bind_iff.mpr (Wp.get_iff.mpr ?_)))
    refine Wp.ite (fun hN => ?_) fun hN => ⟨rfl, by rw [if_neg hN]⟩
    rw [if_pos hN]
    have hcheck : Leaves (State.view fun c _ => c) (checkAllSlacks env) :=
      readSlots_leaves.bind fun _ => checkSlacks_leaves _
    refine Wp.seq ((hcheck _).mono (fun _ _ h => h) fun _ _ _ => trivial) fun _ v hv => ?_
    exact modifyBook_wp.mpr ⟨hv, rfl⟩
  · rw [if_neg hF]
    exact ⟨rfl, rfl⟩

/-- The counter of the periodic check has the period that is set. -/
theorem clock (hN : 0 < N) : Clock Still (TickAt env) (fun s => s.cfg.checkFreq = N)
    (fun s => s.book.checkFreqCounter) N where
  quiet s t h hs := ⟨by rw [h.cfg]; exact hs, h.counter⟩
  visit s t h hs := by
    obtain ⟨hc, hb⟩ := checkByFreq_counter.returns h
    rw [hs, if_pos hN] at hb
    exact ⟨by rw [hc]; exact hs, hb⟩

def Counting (s : State) : Prop :=
  0 ≤ s.book.checkFreqCounter ∧ s.book.checkFreqCounter < max 1 s.cfg.checkFreq

theorem TickAt.counting (h : TickAt env u v) (hu : Counting u) : Counting v := by
  obtain ⟨hc, hb⟩ := checkByFreq_counter.returns h
  unfold Counting at hu ⊢
  rw [hc, hb]
  split
  · split <;> omega
  · exact hu

theorem Ticks.counting {l : List State} (h : Ticks env s l t) (hs : Counting s) :
    Counting t ∧ t.cfg = s.cfg := by
  have quiet : ∀ {s t : State}, Still s t → Counting s → Counting t := by
    intro s t h hs
    unfold Counting
    rw [h.counter, h.cfg]
    exact hs
  induction h with
  | quiet h => exact ⟨quiet h hs, h.cfg⟩
  | visit h hv _ ih =>
    obtain ⟨ht, hc⟩ := ih (hv.counting (quiet h hs))
    exact ⟨ht, hc.trans ((checkByFreq_counter.returns hv).1.trans h.cfg)⟩

theorem Timed.counting (h : Timed env T z s t) (hs : Counting s) : Counting t ∧ t.cfg = s.cfg := by
  obtain ⟨l, hl, -⟩ := h
  exact Ticks.counting hl hs

end Counter

section Init

theorem dupString_timed (hT : Tidy env s) : Post (dupString env str site)
    (fun _ t => ∃ z, Timed env (fun _ => True) z s t) s := by
  refine Wp.seq strlen_post ?_
  rintro n _ ⟨-, rfl⟩
  refine Wp.bind_iff.mpr (Wp.get_iff.mpr (Wp.seq
    (allocate_timed hT fun _ _ _ _ => trivial) fun p t ht => ?_))
  refine Wp.ite (fun _ => ⟨_, ht⟩) fun _ => ?_
  refine Wp.bind_iff.mpr (touch_wp (fun _ => ?_) fun _ => trivial)
  refine Wp.bind_iff.mpr (touch_wp (fun _ => ?_) fun _ => trivial)
  refine Wp.ite (fun _ => trivial) fun _ => ?_
  refine Wp.bind_iff.mpr (Wp.bind_iff.mpr (Wp.get_iff.mpr (storeRange_post.post ?_)))
  rintro _ _ rfl
  exact ⟨_, ht.level rfl⟩

theorem dupStrings_counting (copies : List (ℕ × Site)) (hT : Tidy env s) (hs : Counting s) :
    Post (dupStrings env copies) (fun _ t => Tidy env t ∧ Counting t ∧ t.cfg = s.cfg) s := by
  induction copies generalizing s with
  | nil => exact ⟨hT, hs, rfl⟩
  | cons c rest ih =>
    obtain ⟨str, site⟩ := c
    refine Wp.seq (((dupString_post hT).and (dupString_timed hT)).mono (fun _ _ => id)
      fun _ _ _ => trivial) ?_
    rintro p u ⟨hd, z, hu⟩
    obtain ⟨hu, hc⟩ := hu.counting hs
    exact (ih (hd.tidy hT) hu).post fun _ t ht => ⟨ht.1, ht.2.1, ht.2.2.trans hc⟩

def Begins (env : Env) (settings : Settings) (s t : State) : Prop :=
  ∃ u, dupStrings env settings.copies (s.early settings) = .ok () u ∧
    t = { u with cfg := settings.cfg }

theorem dumaInit_begins (hT : Tidy env s) (hs : Counting s)
    (h0 : s.initDone = false → s.cfg.checkFreq = 0) :
    Post (dumaInit env settings) (fun _ t => s.initDone = true ∧ t = s ∨
      s.initDone = false ∧ t.initDone = true ∧ ∃ u, Begins env settings s u ∧
        u.book.checkFreqCounter = 0 ∧ Timed env (fun _ => True) 0 u t) s := by
  refine Wp.bind_iff.mpr (Wp.get_iff.mpr (Wp.ite (fun h => Or.inl ⟨h, rfl⟩) fun h => ?_))
  have hd : s.initDone = false := by simpa using h
  refine Wp.seq (R := fun _ t => Tidy env t ∧ Begins env settings s t ∧
    t.book.checkFreqCounter = 0) ?_ ?_
  · have hcopy := dupStrings_counting (s := s.early settings) settings.copies
      (hT.congr rfl rfl rfl) hs
    refine Wp.bind_iff.mpr (Wp.modify_iff.mpr (Wp.seq hcopy.keep fun _ u hu => ?_))
    obtain ⟨hr, hTu, hu, hc⟩ := hu
    refine Wp.modify_iff.mpr ⟨hTu.congr rfl rfl rfl, ⟨u, hr, rfl⟩, ?_⟩
    have hFu : u.cfg.checkFreq = 0 := by
      rw [hc]
      exact h0 hd
    unfold Counting at hu
    rw [hFu] at hu
    obtain ⟨h1, h2⟩ := hu
    change u.book.checkFreqCounter = 0
    omega
  · rintro _ u ⟨hTu, hb, hz⟩
    refine Wp.seq (allocate_timed (T := fun _ => True) hTu fun _ _ _ _ => trivial) fun p v hv => ?_
    refine Wp.bind_iff.mpr (Wp.get_iff.mpr (Wp.ite (fun _ => Wp.bind_iff.mpr trivial) fun _ => ?_))
    refine Wp.seq (deallocate_timed (T := fun _ => True) fun _ _ => trivial) fun _ x hx => ?_
    refine Wp.bind_iff.mpr (Wp.get_iff.mpr (Wp.ite (fun _ => Wp.bind_iff.mpr trivial) fun _ => ?_))
    refine Or.inr ⟨hd, rfl, u, hb, hz, ?_⟩
    have hset : u.settles (settings.tls.mallocRequest 123 Site.unknown) = 0 :=
      if_neg fun h => absurd h.1 (by decide : (123 : ℕ) ≠ 0)
    rw [hset] at hv
    exact (hv.trans hx).level rfl

theorem construct_leaves : Leaves (State.view tickView) (construct env) := by
  have hb := tickView_blind
  have harena : ∀ n, Leaves (State.view tickView) (createArena env n) := fun n =>
    hb.pageCreate.bind fun a => Leaves.get_bind fun s => Leaves.ite
      (fun _ => hb.retryCreate.bind fun _ => Leaves.ite (fun _ => hb.pageCreate) fun _ =>
        leaves_pure) fun _ => leaves_pure
  have rest : Leaves (State.view tickView) (do
      let pool ← readSlot env 1
      pageDenyAccess env pool.internalAddress pool.internalSize
      modifyBook fun b => { b with unUsedSlots := Word.sub env.slotsPerPage 2 } : M Unit) :=
    readSlot_leaves.bind fun _ => mprotect_leaves.bind fun _ =>
      leaves_modify fun s => hb.unused s.cfg s.book _
  refine hb.pageCreate.bind fun a => Leaves.ite (fun _ => leaves_throw) fun _ => ?_
  refine mprotect_leaves.bind fun _ => Leaves.bind (leaves_modify fun _ => rfl) fun _ => ?_
  refine (harena _).bind fun a => Leaves.bind (leaves_modify fun _ => rfl) fun _ => ?_
  refine touch_leaves.bind fun _ => Leaves.bind (leaves_modify fun _ => rfl) fun _ => ?_
  exact modifySlot_leaves.bind fun _ =>
    Leaves.ite (fun _ => modifySlot_leaves.bind fun _ => rest) fun _ => rest

end Init

section Watched

/-- From `s`, with the settings made, to `t`, between two calls, operations reach the counter in the
states `l`. -/
inductive Timeline (env : Env) (settings : Settings) : State → List State → State → Prop
  | refl (s : State) : Timeline env settings s [] s
  | init {made : Settings} {b s t : State} {l : List State} (hb : Begins env made b s)
    (he : dumaInit env made b = .ok () t) (hl : Ticks env s l t)
    (hn : t.operations = s.operations + l.length) : Timeline env settings s l t
  | call {c : Call} {p : ℕ} {s t u : State} {l l' : List State} (h : Timeline env settings s l t)
    (he : c.exec env settings t = .ok p u) (hl : Logged env c t l' u) :
    Timeline env settings s (l ++ l') u

theorem Timeline.ticks (h : Timeline env settings s l t) : Ticks env s l t := by
  induction h with
  | refl s => exact .quiet (.refl s)
  | init _ _ hl _ => exact hl
  | call _ _ hl ih => exact ih.append (fun _ _ _ => Still.trans) hl.ticks

/-- The operations since the settings were made. -/
structure Watched (env : Env) (settings : Settings) (s : State) : Prop where
  counting : Counting s
  before : s.initDone = false → s.cfg.checkFreq = 0
  history : 0 < s.cfg.checkFreq → ∃ made b u l, Begins env made b u ∧
    u.book.checkFreqCounter = 0 ∧ u.cfg.checkFreq = s.cfg.checkFreq ∧ Timeline env settings u l s

theorem Watched.init {made : Settings} (h : Watched env settings s) (hT : Tidy env s) :
    Post (dumaInit env made) (fun _ t => Watched env settings t ∧ t.initDone = true) s := by
  refine Wp.mono (dumaInit_begins hT h.counting h.before).keep ?_ fun _ _ _ => trivial
  rintro _ t ⟨he, ⟨hd, rfl⟩ | ⟨hd, hd', u, hb, hz, l, hl, -, hn⟩⟩
  · exact ⟨h, hd⟩
  · have hu : Counting u := ⟨hz.ge, by rw [hz]; exact lt_max_of_lt_left (by decide)⟩
    obtain ⟨ht, hc⟩ := Ticks.counting hl hu
    rw [add_zero] at hn
    refine ⟨⟨ht, fun h => ?_, fun _ => ⟨made, s, u, l, hb, hz, ?_, .init hb he hl hn⟩⟩, hd'⟩
    · rw [hd'] at h
      cases h
    · rw [hc]

theorem Call.exec_watched (h : Watched env settings s) (hT : Tidy env s) (hc : c.Public) :
    Post (c.exec env settings) (fun _ t => Watched env settings t) s := by
  by_cases hi : ∃ made, c = .init made
  · obtain ⟨made, rfl⟩ := hi
    exact Wp.seq (h.init hT) fun _ t ht => ht.1
  · have hlog : Post (c.exec env settings) (fun _ t => ∃ l, Logged env c s l t) s :=
      Call.exec_logged hT fun made hm => absurd ⟨made, hm⟩ hi
    refine hlog.keep.mono ?_ fun _ _ _ => trivial
    rintro p t ⟨he, l, hl⟩
    obtain ⟨ht, hcfg⟩ := Ticks.counting hl.ticks h.counting
    refine ⟨ht, fun hd => ?_, fun hF => ?_⟩
    · rw [hcfg]
      refine h.before (Bool.eq_false_iff.mpr fun hs => ?_)
      rw [(Call.exec_initDone hT hc hs).returns he] at hd
      cases hd
    · rw [hcfg] at hF ⊢
      obtain ⟨made, b, u, l₀, hb, hz, hF', hl₀⟩ := h.history hF
      exact ⟨made, b, u, _, hb, hz, hF', .call hl₀ he hl⟩

theorem construct_watched (he : construct env (State.pristine env) = .ok () s) :
    Watched env settings s := by
  have hv : s.view tickView = (State.pristine env).view tickView := construct_leaves.returns he
  obtain ⟨hc, hb, -⟩ := by simpa [State.view, tickView] using hv
  have hF : s.cfg.checkFreq = 0 := by rw [hc]; rfl
  refine ⟨⟨hb.ge, ?_⟩, fun _ => hF, fun h => ?_⟩
  · rw [hb, hF]
    exact zero_lt_one
  · rw [hF] at h
    cases h

theorem Reach.watched (hw : Reach env settings (fun _ c => c.Public) w) :
    Watched env settings w.st := by
  induction hw with
  | @start s h =>
    have hboot : Post (boot env settings) (fun _ t => Watched env settings t)
        (State.pristine env) := by
      refine Wp.seq (construct_wp.keep.mono (fun _ _ => id) fun _ _ _ => trivial) ?_
      rintro _ s₀ ⟨he, hs⟩
      exact Wp.ite (fun _ => construct_watched he) fun _ =>
        ((construct_watched he).init hs.tidy).post fun _ _ ht => ht.1
    exact hboot.returns h
  | @step w w' c hw hA h ih =>
    obtain ⟨he⟩ := h
    exact (Call.exec_watched ih hw.tidy hA).returns he

end Watched

section Checks

/-- The state in which the periodic check looks at the blocks. -/
def State.ticked (s : State) : State :=
  { s with book := { s.book with checkFreqCounter := s.book.checkFreqCounter + 1 } }

/-- An operation that reaches the counter in `s` checks every slot in use, and each passes. -/
structure ChecksAll (env : Env) (s : State) : Prop where
  due : s.book.checkFreqCounter + 1 = s.cfg.checkFreq
  all : checkAllSlacks env s.ticked = .ok () s.ticked
  slot : ∀ ⦃k : ℕ⦄ ⦃sl : Slot⦄, s.slots[k]? = some sl → sl.state = .inUse →
    checkSlack env sl s.ticked = .ok () s.ticked

theorem checkSlacks_each (slots : List Slot) : Post (checkSlacks env slots)
    (fun _ _ => ∀ sl ∈ slots, sl.state = .inUse → checkSlack env sl s = .ok () s) s := by
  induction slots with
  | nil => exact fun _ h => absurd h List.not_mem_nil
  | cons sl rest ih =>
    refine Wp.ite (fun hc => Wp.seq (checkSlack_same.keep.mono (fun _ _ => id) fun _ _ _ => trivial)
      ?_) fun hc => ih.post fun _ _ h => ?_
    · rintro _ _ ⟨he, rfl⟩
      refine ih.post fun _ _ h sl' hsl' hs' => ?_
      rcases List.mem_cons.mp hsl' with rfl | hsl'
      exacts [he, h sl' hsl' hs']
    · intro sl' hsl' hs'
      rcases List.mem_cons.mp hsl' with rfl | hsl'
      · have h0 : sl'.userSize = 0 := by_contra fun h0 => hc ⟨hs', h0⟩
        unfold checkSlack
        rw [Wp.bind_of_ok (rfl : (get : M State) s = .ok s s), if_pos (Or.inl h0)]
        rfl
      · exact h sl' hsl' hs'

theorem checkAllSlacks_each : Post (checkAllSlacks env) (fun _ t => t = s ∧ ∀ sl ∈ s.slots,
    sl.state = .inUse → checkSlack env sl s = .ok () s) s := by
  refine Wp.bind_iff.mpr (Wp.bind_iff.mpr (Wp.get_iff.mpr (Wp.bind_iff.mpr
    (touch_wp (fun _ => ?_) fun _ => trivial))))
  exact ((checkSlacks_same s.slots).and (checkSlacks_each s.slots)).mono (fun _ _ h => h)
    fun _ _ _ => trivial

/-- The operation at which the counter reaches its period checks every block. -/
theorem TickAt.checksAll (h : TickAt env u v) (hN : 0 < u.cfg.checkFreq)
    (hd : u.book.checkFreqCounter + 1 = u.cfg.checkFreq) : ChecksAll env u := by
  have : Post (checkByFreq env) (fun _ _ => ChecksAll env u) u := by
    refine Wp.bind_iff.mpr (Wp.get_iff.mpr (Wp.ite (fun _ => ?_) fun h => absurd hN h))
    refine Wp.bind_iff.mpr (modifyBook_wp.mpr (Wp.bind_iff.mpr (Wp.get_iff.mpr ?_)))
    refine Wp.ite (fun _ => ?_) fun h => absurd hd h
    refine Wp.seq ((checkAllSlacks_each (s := u.ticked)).keep) ?_
    rintro _ t ⟨hr, rfl, hall⟩
    exact ⟨hd, hr, fun k sl hk hs => hall sl (List.mem_of_getElem? hk) hs⟩
  exact this.returns h

/-- A byte of the no man's land of one of the program's blocks was overwritten. -/
def Damaged (env : Env) (s : State) : Prop :=
  ∃ (k : ℕ) (sl : Slot), s.slots[k]? = some sl ∧ sl.IsUser ∧ ¬ sl.Intact env s

theorem Inside.damaged (h : Inside env s u) (hc : Core env s) (hd : Damaged env s) :
    Damaged env u := by
  obtain ⟨k, sl, hk, hu, hI⟩ := hd
  have hwf := hc.slot hk
  have hr := hwf.region (by rw [hu.1]; nofun)
  refine ⟨k, sl, h.slot hk hu, hu, fun hI' => hI fun x hx => ?_⟩
  rw [← h.mem hk hu ((hwf.placed hu.1).owns_of_live hr hx.1), hI' x hx, State.slackfillOf,
    State.slackfillOf, h.cfg]

theorem Ready.due_reports (h : Ready env u) (hd : Damaged env u) (hN : 0 < u.cfg.checkFreq)
    (hdue : u.book.checkFreqCounter + 1 = u.cfg.checkFreq) : Wp (checkByFreq env)
      (fun _ _ => False) (fun e _ => ∃ sl, Overwritten env u sl ∧ SlackReport sl e) u := by
  refine Wp.mono h.checkByFreq_wp ?_ fun _ _ he => he.2
  rintro _ t ⟨-, hall⟩
  obtain ⟨k, sl, hk, hu, hI⟩ := hd
  exact hI (hall ⟨hN, hdue⟩ k sl hk hu.1)

end Checks

section Runs

def Leads (env : Env) (settings : Settings) (A : World → Call → Prop) : World → World → Prop :=
  Relation.ReflTransGen fun v v' => ∃ c, A v c ∧ v.Step env settings c v'

theorem Watched.initDone (h : Watched env settings s) (hN : 0 < s.cfg.checkFreq) :
    s.initDone = true := by
  by_contra hd
  rw [h.before (by simpa using hd)] at hN
  exact absurd hN (by decide)

/-- As long as a block stays damaged, the counter does not reach its period. -/
theorem Leads.timeline (hset : settings.Proper env) (hw : Run env settings w)
    (hF : w.st.cfg.checkFreq = N) (hN : 0 < N)
    (hl : Leads env settings (fun v c => c.Proper env v.st ∧ Damaged env v.st) w w') :
    (Run env settings w' ∧ w'.st.cfg.checkFreq = N) ∧ ∃ l, Timeline env settings w.st l w'.st ∧
      ∀ u ∈ l, u.book.checkFreqCounter + 1 ≠ N := by
  induction hl with
  | refl => exact ⟨⟨hw, hF⟩, [], .refl _, fun u hu => absurd hu List.not_mem_nil⟩
  | @tail v v' _ hs ih =>
    obtain ⟨c, ⟨hp, hd⟩, hs⟩ := hs
    obtain ⟨⟨hv, hFv⟩, l, hl, hno⟩ := ih
    have hv' : Run env settings v' := hv.step hp hs
    have hreach : Reach env settings (fun _ c => c.Public) v := hv.mono _ _ fun _ _ h => h.public
    have hsafe := hv.safe hset
    obtain ⟨he⟩ := hs
    have hdone := hreach.watched.initDone (by rw [hFv]; exact hN)
    obtain ⟨l', hl'⟩ := (Call.exec_logged hreach.tidy fun _ _ => hdone).returns he
    have hcfg := (Ticks.counting hl'.ticks hreach.watched.counting).2
    refine ⟨⟨hv', hcfg ▸ hFv⟩, l ++ l', .call hl he hl', ?_⟩
    intro u hu
    rcases List.mem_append.mp hu with hu | hu
    · exact hno u hu
    · intro hdue
      have hin := hl'.inside hsafe hp u hu
      have hFu : u.cfg.checkFreq = N := by rw [hin.cfg, hFv]
      obtain ⟨x, hx⟩ := hl'.ticks.mem hu
      exact (hin.ready.due_reports (hin.damaged hsafe.core hd) (by rw [hFu]; exact hN)
        (by rw [hFu]; exact hdue)).returns hx

/-- With a period `N` the counter stays below `N`. All operations since the settings were made form
a timeline, and among `N` consecutive ones of a timeline there is one that checks all blocks. While
a block is damaged fewer than `N` operations are made; the check at the last reports a block. -/
theorem periodic_check (hN : 0 < N) (hw : Reach env settings (fun _ c => c.Public) w)
    (hF : w.st.cfg.checkFreq = N) :
    (0 ≤ w.st.book.checkFreqCounter ∧ w.st.book.checkFreqCounter < N) ∧
    (∃ made b s l, Begins env made b s ∧ s.book.checkFreqCounter = 0 ∧ s.cfg.checkFreq = N ∧
      Timeline env settings s l w.st) ∧
    (∀ s before window after, Timeline env settings s (before ++ window ++ after) w.st →
      s.cfg.checkFreq = N → 0 ≤ s.book.checkFreqCounter → s.book.checkFreqCounter < N →
      N ≤ window.length → ∃ u ∈ window, ChecksAll env u) ∧
    (settings.Proper env → Run env settings w →
      (∀ w', Leads env settings (fun v c => c.Proper env v.st ∧ Damaged env v.st) w w' →
        ∃ l, Timeline env settings w.st l w'.st ∧ w.st.book.checkFreqCounter + l.length < N) ∧
      ∀ u, Damaged env w.st → Inside env w.st u → u.book.checkFreqCounter + 1 = N →
        ∃ e v sl, checkByFreq env u = .error e v ∧ Overwritten env u sl ∧ SlackReport sl e) := by
  have hwatch := hw.watched
  have hrange : 0 ≤ w.st.book.checkFreqCounter ∧ w.st.book.checkFreqCounter < N := by
    obtain ⟨h0, hlt⟩ := hwatch.counting
    rw [hF] at hlt
    exact ⟨h0, by omega⟩
  refine ⟨hrange, ?_, ?_, fun hset hrun => ⟨?_, ?_⟩⟩
  · obtain ⟨made, b, u, l, hb, hz, hFu, hl⟩ := hwatch.history (by rw [hF]; exact hN)
    exact ⟨made, b, u, l, hb, hz, hFu.trans hF, hl⟩
  · intro s before window after hl hFs h0 hlt hn
    obtain ⟨u, hu, hdue⟩ := (clock hN).window Still.refl hl.ticks ⟨hFs, h0, hlt⟩ hn
    have hmem : u ∈ before ++ window ++ after :=
      List.mem_append_left _ (List.mem_append_right _ hu)
    have hFu := (((clock hN).inRange hl.ticks ⟨hFs, h0, hlt⟩).2 u hmem).1
    obtain ⟨v, hv⟩ := hl.ticks.mem hmem
    have hFu : u.cfg.checkFreq = N := hFu
    exact ⟨u, hu, hv.checksAll (by rw [hFu]; exact hN) (by rw [hFu]; exact hdue)⟩
  · intro w' hl
    obtain ⟨-, l, hl, hno⟩ := hl.timeline hset hrun hF hN
    exact ⟨l, hl, (clock hN).length_lt hl.ticks ⟨hF, hrange⟩ hno⟩
  · intro u hd hin hdue
    have hFu : u.cfg.checkFreq = N := by rw [hin.cfg, hF]
    have hwp := hin.ready.due_reports (hin.damaged (hrun.safe hset).core hd)
      (by rw [hFu]; exact hN) (by rw [hFu]; exact hdue)
    cases hr : checkByFreq env u with
    | ok v t => exact (hwp.returns hr).elim
    | error e v =>
      obtain ⟨sl, ho, hrep⟩ := hwp.stops hr
      exact ⟨e, v, sl, rfl, ho, hrep⟩

instance {x : ℕ} : Decidable (sl.Slack x) :=
  inferInstanceAs (Decidable ((_ ≠ _ ∧ _ ≤ _ ∧ _ < _) ∧ ¬ (_ ≤ _ ∧ _ < _)))

def Settings.checking : Settings where
  cfg := { Config.initial with checkFreq := 5, protectFree := -1 }
  tls := Tls.initial Env.sample
  mapFile := none
  outputFile := none

theorem periodic_check_sample : ∃ w, Damaged Env.sample w.st ∧
    (∃ made b s l, Begins Env.sample made b s ∧ s.book.checkFreqCounter = 0 ∧
      s.cfg.checkFreq = 5 ∧ Timeline Env.sample Settings.checking s l w.st) ∧
    ∀ w', Leads Env.sample Settings.checking
      (fun v c => c.Proper Env.sample v.st ∧ Damaged Env.sample v.st) w w' →
      ∃ l, Timeline Env.sample Settings.checking w.st l w'.st ∧
        w.st.book.checkFreqCounter + l.length < 5 := by
  obtain ⟨w, hw, hp⟩ := exists_run Settings.checking
    [.malloc 100 Site.unknown, .write 33558520 33558521 fun _ => 0] (fun w =>
      decide (w.st.cfg.checkFreq = 5) && w.st.slots.any fun sl =>
        decide (sl.IsUser ∧ sl.Slack 33558520 ∧
          w.st.mem 33558520 ≠ w.st.slackfillOf Env.sample sl)) (by decide +kernel)
  obtain ⟨hF, hp⟩ := (Bool.and_eq_true _ _ ▸ hp : _ ∧ _)
  obtain ⟨sl, hsl, hd⟩ := List.any_eq_true.mp hp
  obtain ⟨hu, hs, hne⟩ := of_decide_eq_true hd
  obtain ⟨k, hk⟩ := List.mem_iff_getElem?.mp hsl
  have hset : Settings.checking.Proper Env.sample := fun _ =>
    ⟨show Sizes Env.sample (resolveAlignment (Tls.initial Env.sample) 0 123) 123 by decide,
      fun h => absurd rfl h⟩
  obtain ⟨-, hbegun, -, hrun⟩ := periodic_check (N := 5) (by decide)
    (hw.mono _ _ fun _ _ h => h.public) (of_decide_eq_true hF)
  exact ⟨w, ⟨k, sl, hk, hu, fun hI => hne (hI _ hs)⟩, hbegun, (hrun hset hw).1⟩

end Runs

end Duma

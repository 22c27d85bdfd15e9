import Duma.Refine.Api

/-! # Runs as sequences of steps

Every public call and the start of the process are sequences of steps of the allocator, so what the
steps keep holds in every state between two calls.
-/

namespace Duma

variable {env : Env} {s t u : State} {settings : Settings} {r : Request} {site : Site} {p : ℕ}
  {address oldBuffer newSize : ℕ} {allocator : Allocator} {works : Config → Prop}
  {serves : ℕ → ℕ → Request → Prop} {A : World → Call → Prop} {w : World}

theorem Silents.cfg (h : Silents env (fun _ => False) s t) : t.cfg = s.cfg := by
  induction h with
  | refl => rfl
  | tail _ hs ih =>
    cases hs with
    | inner hi => exact (Inners.same (.single hi)).cfg.trans ih
    | list => exact ih
    | depth => exact ih

theorem Silents.acts (hw : works s.cfg) (h : Silents env (fun _ => False) s t) :
    Acts env works serves s t := by
  induction h with
  | refl => exact .refl
  | tail h hs ih => exact ih.tail (.silent (by rwa [Silents.cfg h]) hs)

def State.Serves (env : Env) (serves : ℕ → ℕ → Request → Prop) (s : State) (r : Request) : Prop :=
  serves (s.sizeFor env r) (s.alignFor r) r

theorem filled_acts : Acts env works serves s (s.filled r p) := by
  unfold State.filled
  split
  exacts [.single (.store _ _ _), .refl]

theorem Served'.acts (hw : works s.cfg) (hr : s.Serves env serves r)
    (hu : r.allocator.type ≠ .internal) (h : Served' env r s p t) : Acts env works serves s t := by
  cases h with
  | null hb _ _ ht => exact ht ▸ Silents.acts hw hb.silents
  | @served b u hb h ht =>
    have hin : Silents env (fun _ => False) s
        (State.entered env r.protectAllocList { s with book := b }) :=
      hb.silents.trans silents_entered
    have leave : ∀ v, works v.cfg → Acts env works serves v (v.left env r.protectAllocList) :=
      fun v hv => Silents.acts hv silents_left
    rw [ht]
    cases h with
    | none h _ =>
      have hsil := hin.trans (Inners.silents h)
      have hw' : works u.cfg := by rwa [Silents.cfg hsil]
      exact ((Silents.acts hw hsil).trans (leave u hw')).trans filled_acts
    | @some i l v h hT _ =>
      have hcfg := Silents.cfg hin
      have hw' : works u.cfg := by rwa [hT.same.cfg, (Inners.same h).cfg, hcfg]
      refine (((Silents.acts hw hin).tail ?_).trans (leave u hw')).trans filled_acts
      exact .serve (by rwa [hcfg]) hr hu h hT

theorem Deallocated.acts {b : Bool} (hw : works s.cfg) (hty : allocator.type ≠ .internal)
    (h : Deallocated env address b allocator site s t) : Acts env works serves s t := by
  cases h with
  | null _ ht => exact ht ▸ .refl
  | @freed u h0 h ht =>
    obtain ⟨hc, hi, hi', hu, hnp, hty', hr⟩ := h
    have hsil : Silents env (fun _ => False) s _ := silents_entered.trans (Inners.silents
      (Cedes.inners hc))
    have hw' := hw
    rw [← Silents.cfg hsil] at hw'
    rw [ht]
    refine ((Silents.acts hw hsil).tail (.release hw' hi' (hu ▸ h0) hnp (hty' ▸ hty) hr)).trans ?_
    refine Silents.acts ?_ silents_left
    rwa [hr.same.cfg]

theorem State.filled_cfg : (s.filled r p).cfg = s.cfg := by
  unfold State.filled
  split <;> rfl

theorem Served'.cfg (h : Served' env r s p t) : t.cfg = s.cfg := by
  cases h with
  | null _ _ _ ht => exact ht ▸ rfl
  | served _ h ht =>
    rw [ht, State.filled_cfg, Silents.cfg silents_left, (h.same within_inners).cfg,
      Silents.cfg silents_entered]

theorem Deallocated.cfg {b : Bool} (h : Deallocated env address b allocator site s t) :
    t.cfg = s.cfg := by
  cases h with
  | null _ ht => rw [ht]
  | freed _ h ht =>
    rw [ht, Silents.cfg silents_left, h.same.cfg, Silents.cfg silents_entered]

theorem copied_acts {ptr oldSize : ℕ} :
    Acts env works serves s (s.copied ptr oldBuffer oldSize newSize) := by
  unfold State.copied
  split
  exacts [.tail (.single (.store _ _ _)) (.store _ _ _), .single (.store _ _ _)]

theorem State.copied_cfg {ptr oldSize : ℕ} :
    (s.copied ptr oldBuffer oldSize newSize).cfg = s.cfg := by
  unfold State.copied
  split <;> rfl

theorem Moved.cfg (h : Moved env oldBuffer newSize site s p t) : t.cfg = s.cfg := by
  cases h with
  | failed h _ => exact h.cfg
  | done h _ _ _ hd => rw [hd.cfg, State.copied_cfg, h.cfg]

theorem Moved.acts (hw : works s.cfg)
    (hr : s.Serves env serves (s.tls.reallocRequest newSize site))
    (h : Moved env oldBuffer newSize site s p t) : Acts env works serves s t := by
  have hu : (s.tls.reallocRequest newSize site).allocator.type ≠ .internal :=
    show AllocType.malloc ≠ .internal by decide
  cases h with
  | failed h _ => exact h.acts hw hr hu
  | done h _ _ _ hd =>
    refine ((h.acts hw hr hu).trans copied_acts).trans (hd.acts ?_ (by decide))
    rwa [State.copied_cfg, h.cfg]

section Initialise

variable {str size : ℕ} {copies : List (ℕ × Site)}

theorem State.serves_congr (h : t.tls = s.tls) :
    t.Serves env serves r ↔ s.Serves env serves r := by
  unfold State.Serves State.sizeFor State.alignFor
  rw [h]

theorem strEnd_post (count x : ℕ) :
    Post (strEnd env count x) (fun y _ => x ≤ y ∧ y < x + count) s := by
  induction count generalizing x with
  | zero => exact trivial
  | succ count ih =>
    refine Wp.bind_iff.mpr (Wp.get_iff.mpr (Wp.ite (fun _ => trivial) fun _ =>
      Wp.ite (fun _ => ⟨le_rfl, by omega⟩) fun _ => (ih (x + 1)).post fun _ _ hy => ?_))
    omega

theorem strlen_lt (h : strlen env str s = .ok size t) : size < env.taskSize := by
  have : Post (strlen env str) (fun n _ => n < env.taskSize) s := by
    refine Wp.seq (strEnd_post _ _) fun y _ hy => ?_
    change y - str < env.taskSize
    omega
  exact this.returns h

theorem Dupped.cfg (h : Dupped env str site s p t) : t.cfg = s.cfg := by
  cases h with
  | failed _ h => exact h.cfg
  | done _ h => exact h.cfg

theorem Dupped.acts (hw : works s.cfg)
    (hr : ∀ size < env.taskSize, strlen env str s = .ok size s →
      s.Serves env serves (s.tls.strdupRequest size site))
    (h : Dupped env str site s p t) : Acts env works serves s t := by
  have hu : ∀ size, (s.tls.strdupRequest size site).allocator.type ≠ .internal := fun _ =>
    show AllocType.malloc ≠ .internal by decide
  cases h with
  | failed he h => exact h.acts hw (hr _ (strlen_lt he) he) (hu _)
  | done he h => exact (h.acts hw (hr _ (strlen_lt he) he) (hu _)).tail (.store _ _ _)

theorem Copies.cfg (h : Copies env copies s t) : t.cfg = s.cfg := by
  induction h with
  | nil => rfl
  | cons h _ ih => exact ih.trans h.cfg

theorem Copies.acts (hw : works s.cfg) (hr : ∀ c ∈ copies, ∀ size < env.taskSize,
      s.Serves env serves (s.tls.strdupRequest size c.2))
    (h : Copies env copies s t) : Acts env works serves s t := by
  induction h with
  | nil => exact .refl
  | @cons str site rest s u t p h hrest ih =>
    have hs := h.acts hw fun size hn _ => hr (str, site) List.mem_cons_self size hn
    refine hs.trans (ih (by rwa [h.cfg]) fun c hc size hn => ?_)
    rw [State.serves_congr h.tls, h.tls]
    exact hr c (List.mem_cons_of_mem _ hc) size hn

theorem Initialised.acts {q : ℕ} {v w : State} (hw : works settings.cfg)
    (hf : ∀ cfg n, works cfg → works { cfg with checkFreq := n })
    (hr : ∀ r, settings.Asks env r → ∀ s : State, s.tls = settings.tls → s.Serves env serves r)
    (h : Initialised env settings s q u v w t) :
    Acts env works serves { s with cfg := settings.cfg, tls := settings.tls } t := by
  have hset : Acts env works serves { s with cfg := settings.cfg, tls := settings.tls }
      (s.early settings) := .single (.set _ _)
  have hcopies : Acts env works serves (s.early settings) u :=
    h.copies.acts (hf _ _ hw) fun c hc size hn => hr _ (Or.inr ⟨c, hc, size, hn, rfl⟩) _ rfl
  have hcfg : Acts env works serves u { u with cfg := settings.cfg } := .single (.set _ u.tls)
  have hv : Acts env works serves { u with cfg := settings.cfg } v :=
    h.served.acts hw (hr _ (Or.inl rfl) _ h.copies.tls) (show AllocType.malloc ≠ .internal by decide)
  have hww : works v.cfg := by
    rw [h.served.cfg]
    exact hw
  rw [h.eq]
  exact (((((hset.trans hcopies).trans hcfg).trans hv).trans (h.freed.acts hww (by decide)))).tail
    .initDone

end Initialise

section Call

/-- What is known of the calls of a run. -/
structure Call.Admitted (env : Env) (works : Config → Prop) (serves : ℕ → ℕ → Request → Prop)
    (s : State) (c : Call) : Prop where
  «public» : c.Public
  works : works (c.start s).cfg
  serves : ∀ r, c.Asks env (c.start s) r → (c.start s).Serves env serves r

variable {c : Call}

theorem strdup_request {str size : ℕ} (h : strlen env str s = .ok size s) :
    (Call.strdup str site).request env s = some (s.tls.strdupRequest size site) := by
  simp only [Call.request, h]

theorem Call.request_user (hc : c.Public) (h : c.request env s = some r) :
    r.allocator.type ≠ .internal := by
  have malloc : AllocType.malloc ≠ .internal := by decide
  cases c with
  | new size allocator site => cases h; exact hc
  | strdup str site =>
    simp only [Call.request] at h
    split at h
    · cases h; exact malloc
    · cases h
  | realloc oldBuffer newSize site =>
    simp only [Call.request] at h
    split at h
    · cases h; exact malloc
    · split at h
      · cases h
      · cases h; exact malloc
  | _ => cases h <;> exact malloc

theorem Call.exec_post (hf : ∀ cfg n, works cfg → works { cfg with checkFreq := n })
    (hT : Tidy env s) (ha : c.Admitted env works serves s) :
    Post (c.exec env settings) (fun _ t => Acts env works serves (c.start s) t) s := by
  have hw := ha.works
  have hs : ∀ r, c.request env (c.start s) = some r → (c.start s).Serves env serves r :=
    fun r hr => ha.serves r (Or.inl hr)
  have hu : ∀ r, c.request env (c.start s) = some r → r.allocator.type ≠ .internal :=
    fun _ => Call.request_user ha.public
  cases c with
  | malloc size site => exact (malloc_post hT).post fun _ _ h => h.acts hw (hs _ rfl) (hu _ rfl)
  | calloc nelem elsize site =>
    exact (calloc_post hT).post fun _ _ h => h.acts hw (hs _ rfl) (hu _ rfl)
  | memalign alignment size site =>
    exact (memalign_post hT).post fun _ _ h => h.acts hw (hs _ rfl) (hu _ rfl)
  | posixMemalign alignment size site =>
    refine Wp.seq (posixMemalign_post hT) fun v t h => ?_
    have : Acts env works serves s t := by
      rcases h with ⟨-, rfl⟩ | ⟨p, h, -⟩
      exacts [.refl, h.acts hw (hs _ rfl) (hu _ rfl)]
    cases v <;> exact this
  | valloc size site => exact (valloc_post hT).post fun _ _ h => h.acts hw (hs _ rfl) (hu _ rfl)
  | strdup str site =>
    exact (strdup_post hT).post fun _ _ h => h.acts hw fun _ _ he => hs _ (strdup_request he)
  | new size allocator site =>
    exact (newOperator_post hT ha.public).post fun _ _ h => h.acts hw (hs _ rfl) (hu _ rfl)
  | realloc oldBuffer newSize site =>
    refine (realloc_post hT).post fun p t h => ?_
    obtain ⟨u, h, rfl⟩ := h
    have hopen : Silents env (fun _ => False) s (s.opened env) := silents_opened
    have hw' : works (s.opened env).cfg := hw
    have hs' : ∀ r, (Call.realloc oldBuffer newSize site).request env s = some r →
        (s.opened env).Serves env serves r := hs
    have hu : Acts env works serves (s.opened env) u := by
      cases h with
      | new h0 h => exact h.acts hw' (hs' _ (if_pos h0)) (hu _ (if_pos h0))
      | free _ _ _ h => exact h.acts hw' (by decide)
      | move h0 hn h => exact h.acts hw' (hs' _ ((if_neg h0).trans (if_neg hn)))
    refine ((Silents.acts hw hopen).trans hu).trans (Silents.acts ?_ silents_closed)
    cases h with
    | new h0 h => rwa [h.cfg]
    | free _ _ _ h => rwa [h.cfg]
    | move _ _ h => rwa [h.cfg]
  | free baseAdr site =>
    exact Wp.seq (free_post hT) fun _ _ h => h.acts hw (by decide)
  | delete ptr allocator site =>
    exact Wp.seq deallocate_post fun _ _ h => h.acts hw ha.public
  | check address =>
    refine Wp.seq check_post ?_
    rintro _ t (rfl | rfl)
    exacts [.refl, Silents.acts hw (silents_opened.trans silents_closed)]
  | checkAll =>
    refine Wp.seq checkAll_post ?_
    rintro _ t rfl
    exact Silents.acts hw (silents_opened.trans silents_closed)
  | mallocUsableSize ptr =>
    refine Wp.seq mallocUsableSize_post ?_
    rintro _ t (rfl | rfl)
    exacts [.refl, Silents.acts hw (.tail (.single (.list (p := .readWrite) (by decide)))
      (.list (p := .noAccess) (by decide)))]
  | delFrame =>
    refine Wp.seq delFrame_post ?_
    rintro _ t ⟨-, rfl⟩
    exact Silents.acts hw (silents_opened.trans silents_closed)
  | write lo hi f =>
    refine Wp.seq storeRange_post ?_
    rintro _ t rfl
    exact .single (.store _ _ _)
  | set tls => exact .refl
  | init settings =>
    refine Wp.seq (dumaInit_post hT) ?_
    rintro _ t (⟨hi, rfl⟩ | ⟨hi, p, u, v, w, h⟩)
    · rw [Call.start, if_pos hi]
      exact .refl
    · have hst : (Call.init settings).start s = { s with cfg := settings.cfg, tls := settings.tls } :=
        if_neg (by simp [hi])
      have hask := ha.serves
      rw [hst] at hw hask ⊢
      refine h.acts hw hf fun r hr v hv => ?_
      have := hask r (Or.inr ⟨settings, rfl, hi, hr⟩)
      exact (State.serves_congr hv).mpr this

theorem Call.start_acts : Acts env works serves s (c.start s) := by
  cases c with
  | init settings =>
    simp only [Call.start]
    split
    · exact .refl
    · exact .single (.set _ _)
  | set tls => exact .single (.set s.cfg tls)
  | _ => exact .refl

end Call

section Reach

structure Driven (env : Env) (settings : Settings) (works : Config → Prop)
    (serves : ℕ → ℕ → Request → Prop) (A : World → Call → Prop) : Prop where
  call : ∀ w c, A w c → c.Admitted env works serves w.st
  freq : ∀ cfg n, works cfg → works { cfg with checkFreq := n }
  works : env.explicitInit = false → works settings.cfg
  serves : env.explicitInit = false → ∀ r, settings.Asks env r → ∀ s : State,
    s.tls = settings.tls → s.Serves env serves r

theorem Reach.acts (hd : Driven env settings works serves A) (h : Reach env settings A w) :
    ∃ s₀, Constructed env s₀ ∧ Acts env works serves s₀ w.st := by
  induction h with
  | @start t h =>
    obtain ⟨s₀, h₀, ht⟩ := Wp.returns boot_post h
    refine ⟨s₀, h₀, ?_⟩
    rcases ht with ⟨-, rfl⟩ | ⟨hx, p, u, v, w, hi⟩
    · exact .refl
    · have hset : Acts env works serves s₀ { s₀ with cfg := settings.cfg, tls := settings.tls } :=
        .single (.set _ _)
      exact hset.trans (hi.acts (hd.works hx) hd.freq (hd.serves hx))
  | step _ hA h ih =>
    obtain ⟨s₀, h₀, hs⟩ := ih
    cases h with
    | intro h =>
      have hc := Wp.returns (Call.exec_post hd.freq (hs.tidy h₀.tidy) (hd.call _ _ hA)) h
      exact ⟨s₀, h₀, (hs.trans Call.start_acts).trans hc⟩

/-- A property that holds at the start of a run and that every step keeps. -/
theorem Reach.keeps {I : State → Prop} (hd : Driven env settings works serves A)
    (h₀ : ∀ s, Constructed env s → I s)
    (hI : ∀ s t, Tidy env s → I s → Act env works serves s t → I t)
    (h : Reach env settings A w) : I w.st := by
  have run : ∀ {s₀ t : State}, Constructed env s₀ → Acts env works serves s₀ t →
      Tidy env t ∧ I t := by
    intro s₀ t hc hs
    induction hs with
    | refl => exact ⟨hc.tidy, h₀ _ hc⟩
    | tail _ ha ih => exact ⟨ha.tidy ih.1, hI _ _ ih.1 ih.2 ha⟩
  obtain ⟨s₀, hc, hs⟩ := h.acts hd
  exact (run hc hs).2

end Reach

end Duma

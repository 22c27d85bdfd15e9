import Duma.Runs.Blocks

/-! # The no man's land in runs

In runs of a program that writes to its blocks alone, no byte of the no man's land of a block
changes, so no check of it reports anything.
-/

namespace Duma

variable {env : Env} {settings : Settings} {s t u : State} {w : World} {c : Call} {r : Request}
  {site : Site} {allocator : Allocator} {i p q m n lo hi : ℕ} {sl new : Slot} {v : Bool}
  {f : ℕ → UInt8}

/-- The no man's land of every block is as a check expects it. -/
def Clean (env : Env) (s : State) : Prop :=
  ∀ ⦃k : ℕ⦄ ⦃sl : Slot⦄, s.slots[k]? = some sl → sl.IsUser → sl.Intact env s

namespace Clean

theorem of_back (h : Clean env s) (hc : Core env s)
    (hback : ∀ ⦃k : ℕ⦄ ⦃sl : Slot⦄, t.slots[k]? = some sl → sl.IsUser → s.slots[k]? = some sl ∧
      ∀ x, sl.Owns x → t.mem x = s.mem x)
    (hcfg : env.explicitInit = true ∨ t.cfg.slackfill = s.cfg.slackfill) : Clean env t := by
  intro k sl hk hu x hx
  obtain ⟨hk', hm⟩ := hback hk hu
  have hwf := hc.slot hk'
  have hown := (hwf.placed hu.1).owns_of_live (hwf.region (by rw [hu.1]; nofun)) hx.1
  rw [hm x hown, h hk' hu x hx, State.slackfillOf, State.slackfillOf]
  rcases hcfg with hx | hcfg
  · rw [if_pos hx, if_pos hx]
  · rw [hcfg]

theorem keeps (h : Clean env s) (hc : Core env s) (hk : Keeps env s t) (hcfg : t.cfg = s.cfg) :
    Clean env t :=
  h.of_back hc (fun _ _ hi hu => ⟨hk.back hi hu, fun _ hx => hk.mem (hk.back hi hu) hu hx⟩)
    (Or.inr (by rw [hcfg]))

theorem keepsOthers (h : Clean env s) (hc : Core env s) (hk : KeepsOthers env i s t)
    (hcfg : t.cfg = s.cfg) : Clean env t :=
  h.of_back hc (fun _ _ hi hu => by
    obtain ⟨hne, hi'⟩ := hk.back hi hu
    exact ⟨hi', fun _ hx => hk.mem hne hi' hu hx⟩) (Or.inr (by rw [hcfg]))

theorem provided (h : Clean env s) (hc : Core env s) (hP : Provided env r s p t i new)
    (hcfg : t.cfg = s.cfg) : Clean env t := by
  intro k sl hk hu
  by_cases hki : k = i
  · subst hki
    obtain rfl := Option.some.inj (hk.symm.trans hP.slot)
    intro x hx
    rw [hP.slack hx, State.slackfillOf]
    split
    · next hx => exact (hP.slackfill hx).symm
    · rw [hcfg]
  · have hs := hP.back hki hk hu
    intro x hx
    have hwf := hc.slot hs
    have hown := (hwf.placed hu.1).owns_of_live (hwf.region (hu.1.trans_ne (by decide))) hx.1
    rw [(hP.others hs hu).2.1 x hown, h hs hu x hx, State.slackfillOf, State.slackfillOf, hcfg]

theorem store (h : Clean env s) (hc : Core env s)
    (hin : ∀ x, lo ≤ x → x < hi → ∃ (k : ℕ) (sl : Slot), s.slots[k]? = some sl ∧ sl.IsUser ∧
      sl.InBlock x) : Clean env (s.store lo hi f) := by
  have hown : ∀ {k : ℕ} {sl : Slot} {x : ℕ}, s.slots[k]? = some sl → sl.IsUser → sl.Live x →
      sl.Owns x := fun hk hu hx =>
    ((hc.slot hk).placed hu.1).owns_of_live ((hc.slot hk).region (by rw [hu.1]; nofun)) hx
  intro k sl hk hu x hx
  have hout : ¬ (lo ≤ x ∧ x < hi) := by
    rintro ⟨h1, h2⟩
    obtain ⟨k', sl', hk', hu', hb⟩ := hin x h1 h2
    have hlive := ((hc.slot hk').placed hu'.1).live_of_inBlock
      ((hc.slot hk').region (by rw [hu'.1]; nofun)) hb
    obtain rfl := hc.eq_of_owns hk' hk (hown hk' hu' hlive) (hown hk hu hx.1)
    obtain rfl := Option.some.inj (hk.symm.trans hk')
    exact hx.2 hb
  exact (if_neg hout).trans (h hk hu x hx)

theorem empty (h : ∀ ⦃k : ℕ⦄ ⦃sl : Slot⦄, s.slots[k]? = some sl → ¬ sl.IsUser) : Clean env s :=
  fun _ _ hk hu => absurd hu (h hk)

end Clean

section Parts

variable (h : Safe env s) (hc : Clean env s)
include h hc

theorem Silents.clean (hs : Silents env (fun _ => False) s t) : Clean env t :=
  hc.keeps h.core (Silents.calm (fun _ => False.elim) h.core hs).keeps (Silents.cfg hs)

theorem Served'.clean (hS : s.Serves env (Served env) r) (hu : r.allocator.type ≠ .internal)
    (hs : Served' env r s p t) : Safe env t ∧ Clean env t := by
  rcases hs.outcome h hS hu with ⟨hst, hk, -⟩ | ⟨i, new, hP⟩
  · exact ⟨hst, hc.keeps h.core hk hs.cfg⟩
  · exact ⟨hP.safe, hc.provided h.core hP hs.cfg⟩

theorem Deallocated.clean (hty : allocator.type ≠ .internal)
    (hd : Deallocated env p v allocator site s t) : Safe env t ∧ Clean env t := by
  rcases hd.outcome h hty with ⟨rfl, -⟩ | ⟨hst, i, sl, hi, hu, -, hk⟩
  · exact ⟨h, hc⟩
  · exact ⟨hst, hc.keepsOthers h.core hk hd.cfg⟩

theorem Clean.copied (hi : s.slots[i]? = some sl) (hu : sl.IsUser) (hq : sl.userAddress = q)
    (hm : sl.userSize = m) : Clean env (s.copied q p n m) := by
  have hin : ∀ x, q ≤ x → x < q + m → ∃ (k : ℕ) (sl : Slot), s.slots[k]? = some sl ∧ sl.IsUser ∧
      sl.InBlock x := fun x h1 h2 => ⟨i, sl, hi, hu, hq ▸ h1, by rw [hq, hm]; exact h2⟩
  unfold State.copied
  dsimp only
  split
  · next hlt =>
    have h₁ : Clean env (s.store q (q + n) fun x => s.mem (p + (x - q))) :=
      hc.store h.core fun x h1 h2 => hin x h1 (by omega)
    exact h₁.store h.core.of_mem fun x h1 h2 => hin x (by omega) h2
  · exact hc.store h.core hin

theorem Moved.clean (hS : s.Serves env (Served env) (s.tls.reallocRequest m site)) (hm : m ≠ 0)
    (hM : Moved env p m site s q t) : Safe env t ∧ Clean env t := by
  have huser : (s.tls.reallocRequest m site).allocator.type ≠ .internal :=
    show AllocType.malloc ≠ .internal by decide
  cases hM with
  | failed hs => exact hs.clean h hc hS huser
  | @done u v k sl hs hq hk hua hd =>
    obtain ⟨j, new, hP⟩ := hs.provided h hS huser hq (Or.inl hm)
    have hu := (hs.clean h hc hS huser).2
    exact hd.clean hP.safe.copied (hu.copied hP.safe hP.slot hP.user hP.addr hP.userSize) (by decide)

theorem Dupped.clean {str : ℕ} (hS : ∀ size < env.taskSize, strlen env str s = .ok size s →
      s.Serves env (Served env) (s.tls.strdupRequest size site))
    (hd : Dupped env str site s p t) : Safe env t ∧ Clean env t := by
  have huser : ∀ size, (s.tls.strdupRequest size site).allocator.type ≠ .internal := fun _ =>
    show AllocType.malloc ≠ .internal by decide
  cases hd with
  | failed hn hs => exact hs.clean h hc (hS _ (strlen_lt hn) hn) (huser _)
  | @done size t hn hs hp hlt =>
    have hS := hS _ (strlen_lt hn) hn
    have hsize : (s.tls.strdupRequest size site).userSize = size + 1 := Word.add_eq (by omega)
    obtain ⟨j, new, hP⟩ := hs.provided h hS (huser _) hp (Or.inl (by rw [hsize]; omega))
    have ht := (hs.clean h hc hS (huser _)).2
    refine ⟨⟨hP.safe.core.of_mem, hP.safe.live, hP.safe.tidy.congr rfl rfl rfl⟩,
      ht.store hP.safe.core fun x h1 h2 => ⟨j, new, hP.slot, hP.user, hP.addr ▸ h1, ?_⟩⟩
    rw [hP.addr, hP.userSize, hsize]
    exact h2

end Parts

section Calls

theorem Copies.clean {copies : List (ℕ × Site)} (h : Safe env s) (hc : Clean env s)
    (hS : ∀ c ∈ copies, ∀ size < env.taskSize,
      s.Serves env (Served env) (s.tls.strdupRequest size c.2))
    (hC : Copies env copies s t) : Safe env t ∧ Clean env t := by
  induction hC with
  | nil => exact ⟨h, hc⟩
  | @cons str site rest s u t p hd hrest ih =>
    obtain ⟨hu, hcu⟩ := hd.clean h hc fun size hn _ => hS (str, site) List.mem_cons_self size hn
    refine ih hu hcu fun c hm size hn => ?_
    rw [State.serves_congr hd.tls, hd.tls]
    exact hS c (List.mem_cons_of_mem _ hm) size hn

theorem Initialised.clean {v x : State} (h : Safe env s) (hc : Clean env s)
    (hx : env.explicitInit = true ∨ ∀ ⦃k : ℕ⦄ ⦃sl : Slot⦄, s.slots[k]? = some sl → ¬ sl.IsUser)
    (hp : settings.Passes env) (hi : Initialised env settings s q u v x t) : Clean env t := by
  have hset : ∀ {s : State} (cfg : Config) (tls : Tls), Safe env s →
      Safe env { s with cfg, tls } := fun cfg tls h =>
    ⟨h.core.congr rfl rfl rfl rfl rfl rfl, h.live, h.tidy.congr rfl rfl rfl⟩
  have h₁ : Safe env (s.early settings) := hset _ _ h
  have hc₁ : Clean env (s.early settings) := by
    rcases hx with hx | hx
    · exact hc.of_back h.core (fun _ _ hi _ => ⟨hi, fun _ _ => rfl⟩) (Or.inl hx)
    · exact .empty hx
  obtain ⟨h₂, hc₂⟩ := hi.copies.clean h₁ hc₁ fun c hc size hn =>
    hp.serves (Or.inr ⟨c, hc, size, hn, rfl⟩) rfl
  have h₃ : Safe env { u with cfg := settings.cfg } := hset _ _ h₂
  have hc₃ : Clean env { u with cfg := settings.cfg } := by
    refine hc₂.of_back h₂.core (fun _ _ hi _ => ⟨hi, fun _ _ => rfl⟩) (Or.inr ?_)
    rw [hi.copies.cfg]
    rfl
  have hS : State.Serves env (Served env) { u with cfg := settings.cfg }
      (settings.tls.mallocRequest 123 Site.unknown) := hp.serves (Or.inl rfl) hi.copies.tls
  obtain ⟨h₄, hc₄⟩ := hi.served.clean h₃ hc₃ hS (show AllocType.malloc ≠ .internal by decide)
  obtain ⟨h₅, hc₅⟩ := hi.freed.clean h₄ hc₄ (by decide)
  rw [hi.eq]
  exact hc₅.of_back h₅.core (fun _ _ hi _ => ⟨hi, fun _ _ => rfl⟩) (Or.inr rfl)

/-- A call of the program that writes to its blocks alone. -/
structure Call.Tame (env : Env) (w : World) (c : Call) : Prop where
  proper : c.Proper env w.st
  write : ∀ lo hi f, c = .write lo hi f → ∀ x, lo ≤ x → x < hi →
    ∃ b ∈ w.heap, b.addr ≤ x ∧ x < b.addr + b.size

theorem World.Matched.inBlock {b : Block} {x : ℕ} (h : w.Matched env) (hb : b ∈ w.heap)
    (h1 : b.addr ≤ x) (h2 : x < b.addr + b.size) :
    ∃ (k : ℕ) (sl : Slot), w.st.slots[k]? = some sl ∧ sl.IsUser ∧ sl.InBlock x := by
  obtain ⟨sl, hi, hcar, -⟩ := h.slot hb
  exact ⟨b.slot, sl, hi, hcar.user, by rw [hcar.addr]; exact h1, by rw [hcar.addr, hcar.size]; exact h2⟩

theorem Call.exec_clean (h : w.Matched env) (hc : Clean env w.st) (ht : c.Tame env w)
    (hx : ∀ t ∈ c.initSettings w.st, env.explicitInit = true) :
    Post (c.exec env settings) (fun _ t => Clean env t) w.st := by
  have hs := h.safe
  have hT := hs.tidy
  have serve : ∀ {r : Request} {p : ℕ} {t : State}, c.start w.st = w.st →
      c.request env w.st = some r → Served' env r w.st p t → Clean env t := by
    intro r p t hst hr hS
    have hreq := ht.proper.serves (Or.inl (hst.symm ▸ hr))
    rw [hst] at hreq
    exact (hS.clean hs hc hreq (Call.request_user ht.proper.public hr)).2
  have silent : ∀ {t : State}, Silents env (fun _ => False) w.st t → Clean env t := fun hS =>
    hS.clean hs hc
  cases c with
  | malloc size site => exact (malloc_post hT).post fun _ _ => serve rfl rfl
  | calloc nelem elsize site => exact (calloc_post hT).post fun _ _ => serve rfl rfl
  | memalign alignment size site => exact (memalign_post hT).post fun _ _ => serve rfl rfl
  | valloc size site => exact (valloc_post hT).post fun _ _ => serve rfl rfl
  | new size allocator site =>
    exact (newOperator_post hT ht.proper.public).post fun _ _ => serve rfl rfl
  | posixMemalign alignment size site =>
    refine Wp.seq (posixMemalign_post hT) fun v t hv => ?_
    have : Clean env t := by
      rcases hv with ⟨-, rfl⟩ | ⟨p, hv, -⟩
      exacts [hc, serve rfl rfl hv]
    cases v <;> exact this
  | strdup str site =>
    refine (strdup_post hT).post fun p t hd => (hd.clean hs hc fun size _ he => ?_).2
    exact ht.proper.serves (Or.inl (strdup_request he))
  | realloc oldBuffer newSize site =>
    refine (realloc_post hT).post fun p t hr => ?_
    obtain ⟨u, hr, rfl⟩ := hr
    have hopen : Silents env (fun _ => False) w.st (w.st.opened env) := silents_opened
    have hso := hs.silents (fun _ => False.elim) hopen
    have hco := hopen.clean hs hc
    have hS : ∀ r, (Call.realloc oldBuffer newSize site).request env w.st = some r →
        (w.st.opened env).Serves env (Served env) r := fun r hr => ht.proper.serves (Or.inl hr)
    have huser : AllocType.malloc ≠ .internal := by decide
    obtain ⟨hsu, hcu⟩ : Safe env u ∧ Clean env u := by
      cases hr with
      | new h0 hn => exact hn.clean hso hco (hS _ (if_pos h0)) huser
      | free _ _ _ hd => exact hd.clean hso hco (by decide)
      | move h0 hn hM => exact hM.clean hso hco (hS _ ((if_neg h0).trans (if_neg hn))) hn
    exact Silents.clean hsu hcu silents_closed
  | free baseAdr site => exact Wp.seq (free_post hT) fun _ _ hd => (hd.clean hs hc (by decide)).2
  | delete ptr allocator site =>
    exact Wp.seq deallocate_post fun _ _ hd => (hd.clean hs hc ht.proper.public).2
  | check address =>
    refine Wp.seq check_post ?_
    rintro _ t (rfl | rfl)
    exacts [hc, silent (silents_opened.trans silents_closed)]
  | checkAll =>
    refine Wp.seq checkAll_post ?_
    rintro _ t rfl
    exact silent (silents_opened.trans silents_closed)
  | mallocUsableSize ptr =>
    refine Wp.seq mallocUsableSize_post ?_
    rintro _ t (rfl | rfl)
    exacts [hc, silent (.tail (.single (.list (p := .readWrite) (by decide)))
      (.list (p := .noAccess) (by decide)))]
  | delFrame =>
    refine Wp.seq delFrame_post ?_
    rintro _ t ⟨-, rfl⟩
    exact silent (silents_opened.trans silents_closed)
  | write lo hi f =>
    refine Wp.seq storeRange_post ?_
    rintro _ t rfl
    refine hc.store hs.core fun x h1 h2 => ?_
    obtain ⟨b, hb, h1, h2⟩ := ht.write lo hi f rfl x h1 h2
    exact h.inBlock hb h1 h2
  | set tls => exact hc.of_back hs.core (fun _ _ hi _ => ⟨hi, fun _ _ => rfl⟩) (Or.inr rfl)
  | init settings =>
    refine Wp.seq (dumaInit_post hT) ?_
    rintro _ t (⟨hi, rfl⟩ | ⟨hi, p, u, v, x, hin⟩)
    · exact hc
    · have hm : settings ∈ (Call.init settings).initSettings w.st := if_neg (by simp [hi])
      exact hin.clean hs hc (Or.inl (hx settings hm)) (ht.proper.init settings hm)

end Calls

section Run

variable {works : Config → Prop} {serves : ℕ → ℕ → Request → Prop} {A : World → Call → Prop}

theorem Act.initDone_eq (h : Act env works serves s t) (hd : s.initDone = true) :
    t.initDone = true := by
  cases h with
  | silent _ hs =>
    cases hs with
    | inner hi => exact (Inners.same (.single hi)).initDone.trans hd
    | list => exact hd
    | depth => exact hd
  | serve _ _ _ hi hT => exact (hT.same.initDone.trans (Inners.same hi).initDone).trans hd
  | release _ _ _ _ _ hr => exact hr.same.initDone.trans hd
  | store => exact hd
  | set => exact hd
  | initDone => rfl

theorem Call.exec_initDone (hT : Tidy env s) (hc : c.Public) (hd : s.initDone = true) :
    Post (c.exec env settings) (fun _ t => t.initDone = true) s := by
  have hstart : (c.start s).initDone = true := by
    rw [← hd]
    cases c <;> first | rfl | (simp only [Call.start]; split <;> rfl)
  have hacts : Post (c.exec env settings)
      (fun _ t => Acts env (fun _ => True) (fun _ _ _ => True) (c.start s) t) s :=
    Call.exec_post (fun _ _ => id) hT ⟨hc, trivial, fun _ _ => trivial⟩
  refine hacts.post fun _ t ha => ?_
  induction ha with
  | refl => exact hstart
  | tail _ ha ih => exact ha.initDone_eq ih

/-- A build that initialises itself has done so when its first call begins. -/
theorem Reach.initDone (hw : Reach env settings (fun _ c => c.Public) w)
    (hx : env.explicitInit = false) : w.st.initDone = true := by
  induction hw with
  | start h =>
    obtain ⟨s₀, -, ⟨hx', -⟩ | ⟨-, p, u, v, x, hi⟩⟩ := boot_post.returns h
    · rw [hx] at hx'
      cases hx'
    · rw [hi.eq]
  | @step w w' c hw hA h ih =>
    obtain ⟨he⟩ := h
    exact (Call.exec_initDone hw.tidy hA ih).returns he

theorem Reach.explicit {u : Settings} (hw : Reach env settings (fun _ c => c.Public) w)
    (hu : u ∈ c.initSettings w.st) : env.explicitInit = true := by
  by_contra hx
  have hd := hw.initDone (by simpa using hx)
  cases c <;> simp_all [Call.initSettings]

theorem Run.matched (hset : settings.Proper env) (hw : Run env settings w) : w.Matched env := by
  have hpub : ∀ {w : World}, Run env settings w → Reach env settings (fun _ c => c.Public) w :=
    fun hw => hw.mono _ _ fun _ _ h => h.public
  induction hw with
  | start h => exact ⟨Run.safe hset (.start h), nofun, List.nodup_nil⟩
  | @step w w' c hw hA h ih =>
    obtain ⟨he⟩ := h
    exact ((Call.exec_world (W := fun _ _ _ => True) ih hA (fun _ _ _ _ => trivial)
      fun u hu => (hpub hw).explicit hu).returns he).matched ih

/-- In runs of a program that writes to its blocks alone no no man's land is overwritten. -/
theorem Reach.clean (hset : settings.Proper env)
    (hw : Reach env settings (fun w c => c.Tame env w) w) : Clean env w.st := by
  have hrun : ∀ {w : World}, Reach env settings (fun w c => c.Tame env w) w → Run env settings w :=
    fun hw => hw.mono _ _ fun _ _ h => h.proper
  induction hw with
  | start h =>
    obtain ⟨s₀, h₀, ⟨-, rfl⟩ | ⟨hx, p, u, v, x, hi⟩⟩ := boot_post.returns h
    · exact .empty fun k sl hk => h₀.not_isUser hk
    · exact hi.clean h₀.safe (.empty fun k sl hk => h₀.not_isUser hk)
        (Or.inr fun k sl hk => h₀.not_isUser hk) (hset hx)
  | @step w w' c hw hA h ih =>
    obtain ⟨he⟩ := h
    exact (Call.exec_clean (Run.matched hset (hrun hw)) ih hA fun u hu =>
      ((hrun hw).mono _ _ fun _ _ h => h.public).explicit hu).returns he

end Run

end Duma

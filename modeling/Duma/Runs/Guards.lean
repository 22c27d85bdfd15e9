import Duma.Runs.Slack

/-! # Guard pages in runs

Where no guard below a block is asked for together with an alignment above a page, exactly the live
memory of every block may be accessed, and a whole page behind or before the block may not.
-/

namespace Duma

variable {env : Env} {settings : Settings} {s t u : State} {w : World} {c : Call} {r : Request}
  {b : Block} {i k n al x : ℕ} {l : Layout} {sl new : Slot} {works : Config → Prop}
  {serves : ℕ → ℕ → Request → Prop} {A : World → Call → Prop}

/-- Nothing outside the region is opened for the request, wherever the region lies. -/
def Request.Tight (env : Env) (al : ℕ) (r : Request) : Prop :=
  r.userSize = 0 ∨ r.protectBelow = false ∨ al ≤ env.pageSize

structure Call.Tight (env : Env) (s : State) (c : Call) : Prop where
  proper : c.Proper env s
  tight : ∀ r, c.Asks env (c.start s) r → r.Tight env ((c.start s).alignFor r)

structure Settings.Tight (env : Env) (settings : Settings) : Prop where
  proper : settings.Proper env
  tight : env.explicitInit = false → ∀ r, settings.Asks env r →
    r.Tight env (resolveAlignment settings.tls r.alignment r.userSize)

abbrev TightRun (env : Env) (settings : Settings) : World → Prop :=
  Reach env settings fun w c => c.Tight env w.st

abbrev TightServed (env : Env) (n al : ℕ) (r : Request) : Prop :=
  Served env n al r ∧ r.Tight env al

theorem Request.Tight.contained (h : r.Tight env al) (int : ℕ) : r.Contained env al int :=
  h.imp_right (Or.imp_right Or.inl)

theorem tight_driven (hset : settings.Tight env) : Driven env settings (fun _ => True)
    (TightServed env) fun w c => c.Tight env w.st where
  call w c h := ⟨h.proper.public, trivial, fun r hr => ⟨h.proper.serves hr, h.tight r hr⟩⟩
  freq _ _ _ := trivial
  works _ := trivial
  serves hx r hr s hs := by
    refine ⟨(hset.proper hx).serves hr hs, ?_⟩
    by_cases h0 : r.userSize = 0
    · exact Or.inl h0
    · rw [State.alignFor, if_neg h0, hs]
      exact hset.tight hx r hr

/-- A property that holds at the start of a run whose requests are all served and that every step
keeps. -/
theorem Reach.throughout {I : State → Prop}
    (hS : ∀ n al r, serves n al r → Served env n al r)
    (hd : Driven env settings works serves A) (h₀ : ∀ s, Constructed env s → I s)
    (hI : ∀ s t, Safe env s → I s → Act env works serves s t → I t)
    (h : Reach env settings A w) : Safe env w.st ∧ I w.st := by
  refine h.keeps (I := fun s => Safe env s ∧ I s) hd (fun s hc => ⟨hc.safe, h₀ s hc⟩) ?_
  rintro s t - ⟨hs, hi⟩ ha
  exact ⟨ha.safe hS hs, hI s t hs hi ha⟩

section Step

/-- Of the region of a block only the live memory may be accessed. -/
def Guarded (env : Env) (s : State) : Prop :=
  ∀ ⦃k : ℕ⦄ ⦃sl : Slot⦄ ⦃x : ℕ⦄, s.slots[k]? = some sl → sl.IsUser → sl.Owns x → ¬ sl.Live x →
    s.page env x = .noAccess

theorem Guarded.keeps (h : Guarded env s) (hk : Keeps env s t) : Guarded env t := by
  intro k sl x hi hu hx hno
  have hi' := hk.back hi hu
  rw [hk.page hi' hu hx]
  exact h hi' hu hx hno

theorem Guarded.keepsOthers (h : Guarded env s) (hk : KeepsOthers env i s t) : Guarded env t := by
  intro k sl x hi hu hx hno
  obtain ⟨hne, hi'⟩ := hk.back hi hu
  rw [hk.page hne hi' hu hx]
  exact h hi' hu hx hno

theorem Guarded.taken (h : Guarded env s) (hc : Core env s) (hT : Taken env n al r i l s t sl new)
    (ht : r.Tight env al) : Guarded env t := by
  intro k sl' x hk hu hx hno
  rw [hT.slot] at hk
  split at hk
  · obtain rfl := Option.some.inj hk
    exact hT.dead hx hno
  · next hik =>
    have hout : ¬ new.Owns x := fun hn => hik (hc.eq_of_owns hT.old hk (hT.owns_iff.mp hn) hx)
    rw [hT.contained (ht.contained _) hout]
    exact h hk hu hx hno

/-- Every step keeps the guard pages. -/
theorem Act.guarded (h : Safe env s) (hg : Guarded env s)
    (ha : Act env works (TightServed env) s t) : Guarded env t := by
  cases ha with
  | silent _ ha => exact hg.keeps (ha.calm (fun _ => False.elim) h.core).keeps
  | serve _ hr hu hi ht =>
    obtain ⟨hk, ⟨sl, new, hT⟩, -⟩ := h.serve hr.1 hu hi ht
    exact (hg.keeps hk.keeps).taken hk.core hT hr.2
  | release _ hi h0 hp hu hr =>
    have hsl := (h.core.slot hi).isUser h0 hp hu
    exact hg.keepsOthers (hr.keepsOthers h.core hi (hsl.1.trans_ne (by decide)))
  | store => exact hg
  | set => exact hg
  | initDone => exact hg

end Step

section Placement

theorem Env.roundUp_eq {m q : ℕ} (hd : env.pageSize ∣ q) (h1 : m ≤ q) (h2 : q < m + env.pageSize) :
    env.roundUp m = q := by
  have hm := env.le_roundUp m
  have hlt := env.roundUp_lt m
  exact le_antisymm (Env.le_of_lt_add (Env.dvd_roundUp m) hd (by omega))
    (Env.le_of_lt_add hd (Env.dvd_roundUp m) (by omega))

variable (hp : sl.Placed env) (hu : sl.IsUser) (h0 : sl.userSize ≠ 0)
include hp hu h0

theorem Slot.Placed.dead_above (ha : ¬ sl.protAddress < sl.userAddress)
    (h1 : env.roundUp (sl.userAddress + sl.userSize) ≤ x)
    (h2 : x < env.roundUp (sl.userAddress + sl.userSize) + env.pageSize) :
    sl.Owns x ∧ ¬ sl.Live x := by
  have hP := env.pageSize_pos
  cases hp with
  | zero hs => exact absurd hs h0
  | above hs hui hd hle hlt hend =>
    rw [Env.roundUp_eq hd hle hlt] at h1 h2
    refine ⟨⟨by omega, by omega⟩, fun hlive => ?_⟩
    have := hlive.2.2
    rw [Slot.accessArea_of_le (not_lt.mp ha)] at this
    omega
  | below hs hd hp hle hend => omega
  | list _ _ _ hal => exact absurd (by rw [hal]; rfl) hu.2

theorem Slot.Placed.dead_below (hr : sl.RegionOk env) (hb : sl.protAddress < sl.userAddress)
    (h1 : sl.userAddress ≤ x + env.pageSize) (h2 : x < sl.userAddress) :
    sl.Owns x ∧ ¬ sl.Live x := by
  have hP := env.pageSize_pos
  cases hp with
  | zero hs => exact absurd hs h0
  | above hs hui hd hle hlt hend => omega
  | below hs hd hp hle hend =>
    refine ⟨⟨by omega, by omega⟩, fun hlive => ?_⟩
    have := hlive.2.1
    rw [Slot.accessArea_of_lt hb hr] at this
    omega
  | list _ _ _ hal => exact absurd (by rw [hal]; rfl) hu.2

end Placement

section Sample

instance : Decidable (r.Tight env al) := inferInstanceAs (Decidable (_ ∨ _ ∨ _))

def Call.tightly (env : Env) (s : State) (c : Call) : Bool :=
  match c with
  | .init _ => false
  | c => decide (c.Proper env s ∧
      ∀ r ∈ c.request env (c.start s), r.Tight env ((c.start s).alignFor r))

theorem Call.tight_of_tightly (h : c.tightly env s = true) : c.Tight env s := by
  have hinit : ∀ t, c ≠ .init t := by
    rintro t rfl
    cases h
  have hc : c.Proper env s ∧
      ∀ r ∈ c.request env (c.start s), r.Tight env ((c.start s).alignFor r) := by
    cases c <;> first | exact of_decide_eq_true h | exact absurd rfl (hinit _)
  refine ⟨hc.1, ?_⟩
  rintro r (hr | ⟨t, ht, -⟩)
  · exact hc.2 r hr
  · exact absurd ht (hinit t)

theorem Settings.sample_tight (protectFree maxAlloc : ℤ) :
    (Settings.sample protectFree maxAlloc).Tight Env.sample := by
  refine ⟨Settings.sample_proper _ _, ?_⟩
  rintro - r (rfl | ⟨c, hc, -⟩)
  · exact Or.inr (Or.inl rfl)
  · cases hc

theorem exists_guarded : ∃ w, TightRun Env.sample (Settings.sample (-1) (-1)) w ∧
    (∃ b ∈ w.heap, b.size = 100 ∧ b.below = false) ∧ ∃ b ∈ w.heap, b.size = 100 ∧ b.below = true := by
  obtain ⟨w, hw, hp⟩ := @exists_reach Env.sample (Settings.sample (-1) (-1))
    (fun w c => c.Tight Env.sample w.st) (fun w c => c.tightly Env.sample w.st)
    [.malloc 100 Site.unknown, .set { Tls.initial Env.sample with protectBelow := true },
      .malloc 100 Site.unknown]
    (fun w => decide ((∃ b ∈ w.heap, b.size = 100 ∧ b.below = false) ∧
      ∃ b ∈ w.heap, b.size = 100 ∧ b.below = true))
    (fun _ _ => Call.tight_of_tightly) (by decide +kernel)
  exact ⟨w, hw, of_decide_eq_true hp⟩

end Sample

section Run

variable (hset : settings.Tight env) (hw : TightRun env settings w)
include hset hw

theorem TightRun.guarded : Guarded env w.st :=
  (hw.throughout (fun _ _ _ h => h.1) (tight_driven hset) (I := Guarded env)
    (fun _ hc _ _ _ hk hu => absurd hu (hc.not_isUser hk)) fun _ _ hs hg ha => ha.guarded hs hg).2

theorem TightRun.matched : w.Matched env :=
  Run.matched hset.proper (hw.mono _ _ fun _ _ h => h.proper)

/-- In every state of a run the bytes of a block may be accessed, and the page behind a block whose
guard is above may not. -/
theorem overrun_guarded (hb : b ∈ w.heap) :
    (∀ x, b.addr ≤ x → x < b.addr + b.size → w.st.page env x = .readWrite) ∧
    (b.size ≠ 0 → b.below = false → ∀ x, env.roundUp (b.addr + b.size) ≤ x →
      x < env.roundUp (b.addr + b.size) + env.pageSize → w.st.page env x = .noAccess) := by
  have hm := TightRun.matched hset hw
  obtain ⟨sl, hi, hc, hr, hp, -⟩ := hm.slot hb
  refine ⟨fun x h1 h2 => hm.safe.live hi hc.user (hp.live_of_inBlock hr ?_),
    fun h0 habove x h1 h2 => ?_⟩
  · exact ⟨by rw [hc.addr]; exact h1, by rw [hc.addr, hc.size]; exact h2⟩
  · rw [← hc.addr, ← hc.size] at h1 h2
    have hside : ¬ sl.protAddress < sl.userAddress := fun hlt => by
      rw [(hc.side h0).mpr hlt] at habove
      cases habove
    obtain ⟨hown, hno⟩ := hp.dead_above hc.user (hc.size ▸ h0) hside h1 h2
    exact TightRun.guarded hset hw hi hc.user hown hno

omit hset hw in
theorem overrun_guarded_sample : ∃ w b, TightRun Env.sample (Settings.sample (-1) (-1)) w ∧
    b ∈ w.heap ∧ b.size = 100 ∧
    (∀ x, b.addr ≤ x → x < b.addr + b.size → w.st.page Env.sample x = .readWrite) ∧
    ∀ x, Env.sample.roundUp (b.addr + b.size) ≤ x →
      x < Env.sample.roundUp (b.addr + b.size) + Env.sample.pageSize →
        w.st.page Env.sample x = .noAccess := by
  obtain ⟨w, hw, ⟨b, hb, hn, hab⟩, -⟩ := exists_guarded
  obtain ⟨hlive, hpage⟩ := overrun_guarded (Settings.sample_tight _ _) hw hb
  exact ⟨w, b, hw, hb, hn, hlive, hpage (by omega) hab⟩

/-- In every state of a run the bytes of a block may be accessed, the page that ends at a block whose
guard is below may not, and of the region of any block exactly the live memory may. -/
theorem underrun_guarded (hb : b ∈ w.heap) :
    (∀ x, b.addr ≤ x → x < b.addr + b.size → w.st.page env x = .readWrite) ∧
    (b.size ≠ 0 → b.below = true → ∀ x, b.addr ≤ x + env.pageSize → x < b.addr →
      w.st.page env x = .noAccess) ∧
    ∃ sl, w.st.slots[b.slot]? = some sl ∧ sl.userAddress = b.addr ∧ sl.userSize = b.size ∧
      ∀ x, sl.Owns x → (w.st.page env x = .readWrite ↔ sl.Live x) := by
  have hm := TightRun.matched hset hw
  have hg := TightRun.guarded hset hw
  obtain ⟨sl, hi, hc, hr, hp, -⟩ := hm.slot hb
  refine ⟨fun x h1 h2 => hm.safe.live hi hc.user (hp.live_of_inBlock hr ?_),
    fun h0 hbelow x h1 h2 => ?_, sl, hi, hc.addr, hc.size,
    fun x hx => ⟨fun hpage => ?_, fun hl => hm.safe.live hi hc.user hl⟩⟩
  · exact ⟨by rw [hc.addr]; exact h1, by rw [hc.addr, hc.size]; exact h2⟩
  · rw [← hc.addr] at h1 h2
    obtain ⟨hown, hno⟩ := hp.dead_below hc.user (hc.size ▸ h0) hr
      ((hc.side h0).mp hbelow) h1 h2
    exact hg hi hc.user hown hno
  · by_contra hno
    rw [hg hi hc.user hx hno] at hpage
    cases hpage

omit hset hw in
theorem underrun_guarded_sample : ∃ w b, TightRun Env.sample (Settings.sample (-1) (-1)) w ∧
    b ∈ w.heap ∧ b.size = 100 ∧ b.below = true ∧
    ∀ x, b.addr ≤ x + Env.sample.pageSize → x < b.addr → w.st.page Env.sample x = .noAccess := by
  obtain ⟨w, hw, -, b, hb, hn, hbe⟩ := exists_guarded
  obtain ⟨-, hpage, -⟩ := underrun_guarded (Settings.sample_tight _ _) hw hb
  exact ⟨w, b, hw, hb, hn, hbe, hpage (by omega) hbe⟩

end Run

end Duma

import Duma.Region.Retire
import Duma.Runs.Guards

/-! # Freed blocks in runs

No run of tight requests gives access to a freed block before its memory is mapped again, and none
uses a slot that protects memory for anything else before all of it was given to a page deletion.
-/

namespace Duma

variable {env : Env} {settings : Settings} {s t u : State} {w w' w'' : World} {c : Call} {b : Block}
  {i k p x : ℕ} {v : Bool} {sl : Slot} {ev : List Event} {allocator : Allocator} {site : Site}
  {works : Config → Prop} {serves : ℕ → ℕ → Request → Prop} {A : World → Call → Prop}

/-- The worlds that a run may go on to. -/
abbrev World.Goes (env : Env) (settings : Settings) (A : World → Call → Prop) :
    World → World → Prop :=
  Relation.ReflTransGen fun w w' => ∃ c, A w c ∧ w.Step env settings c w'

section Goes

theorem World.Goes.reach (hw : Reach env settings A w) (h : w.Goes env settings A w') :
    Reach env settings A w' := by
  induction h with
  | refl => exact hw
  | tail _ hs ih =>
    obtain ⟨c, hA, hs⟩ := hs
    exact ih.step hA hs

theorem World.Goes.acts (hd : Driven env settings works serves A) (hT : Tidy env w.st)
    (h : w.Goes env settings A w') : Duma.Acts env works serves w.st w'.st := by
  induction h with
  | refl => exact .refl
  | tail _ hs ih =>
    obtain ⟨c, hA, ⟨he⟩⟩ := hs
    have hc := (Call.exec_post hd.freq (ih.tidy hT) (hd.call _ _ hA)).returns he
    exact (ih.trans Call.start_acts).trans hc

theorem World.Goes.ages (hset : settings.Tight env) (hs : Safe env w.st)
    (h : w.Goes env settings (fun w c => c.Tight env w.st) w') :
    Aged env True w.st w'.st := by
  have hS : ∀ n al r, TightServed env n al r → Served env n al r ∧
      (True → ∀ int, r.Contained env al int) := fun _ _ _ hr => ⟨hr.1, fun _ => hr.2.contained⟩
  exact Duma.Acts.aged hS hs (h.acts (tight_driven hset) hs.tidy)

end Goes

section Free

theorem closed_ages (hc : Core env s) : Ages env True s (s.closed env) [] := by
  have hl : Ages env True s (s.setList env .noAccess) [] := setList_ages hc
  have hu : Ages env True (s.setList env .noAccess) (s.closed env) [] :=
    .of_slots rfl rfl fun _ hx => hx.page
  exact hl.trans hu

theorem left_ages (hc : Core env s) : Ages env True s (s.left env v) [] := by
  cases v with
  | false => exact .refl env True s
  | true => exact closed_ages hc

theorem Deallocated.barred (h : Safe env s) (hty : allocator.type ≠ .internal)
    (hi : s.slots[i]? = some sl) (hu : sl.IsUser)
    (hd : Deallocated env sl.userAddress v allocator site s t) (hx : sl.Owns x) :
    Barred env t x := by
  have hne := h.core.userAddress_ne hi hu
  cases hd with
  | null ha => exact absurd ha (not_or.mpr hne)
  | @freed u h0 hf ht =>
    obtain ⟨hced, -, hi', hua, hnp, hty', hr⟩ := hf
    have hin : Silents env (fun _ => False) s _ :=
      silents_entered.trans (Inners.silents (Cedes.inners hced))
    have hkeeps := (Silents.calm (fun _ => False.elim) h.core hin).keeps
    have hsafe := h.silents (fun _ => False.elim) hin
    have hus := (hsafe.core.slot hi').isUser (hua ▸ h0) hnp (hty' ▸ hty)
    have hi₁ := hkeeps.slot hi hu
    obtain rfl := hsafe.core.eq_of_user hi₁ hi' hua.symm hne.1
    obtain rfl := Option.some.inj (hi₁.symm.trans hi')
    have hb := hr.barred hsafe.core hi' hus hx
    rw [ht]
    exact (left_ages (hsafe.release hi' hus hr).core).barred_nil hb

/-- A call that frees a block leaves it barred. -/
theorem World.Matched.barred (h : w.Matched env) (hc : c.Proper env w.st)
    (hi : w.st.slots[i]? = some sl) (hu : sl.IsUser)
    (he : c.exec env settings w.st = .ok p t) (hf : c.frees p = some sl.userAddress)
    (hx : sl.Owns x) : Barred env t x := by
  have hT := h.safe.tidy
  have hne := h.safe.core.userAddress_ne hi hu
  cases c with
  | free baseAdr site =>
    obtain rfl := Option.some.inj hf
    have hd : Post (Call.exec env settings (.free sl.userAddress site)) (fun _ t =>
        Deallocated env sl.userAddress true .free site w.st t) w.st :=
      Wp.seq (free_post hT) fun _ _ hd => hd
    exact (hd.returns he).barred h.safe (by decide) hi hu hx
  | delete ptr allocator site =>
    obtain rfl := Option.some.inj hf
    have hd : Post (Call.exec env settings (.delete sl.userAddress allocator site)) (fun _ t =>
        Deallocated env sl.userAddress true allocator site w.st t) w.st :=
      Wp.seq deallocate_post fun _ _ hd => hd
    exact (hd.returns he).barred h.safe hc.public hi hu hx
  | realloc oldBuffer newSize site =>
    obtain ⟨u, hr, rfl⟩ := (realloc_post hT).returns he
    simp only [Call.frees] at hf
    split at hf
    · next hfree =>
      obtain rfl := Option.some.inj hf
      have hopen : Silents env (fun _ => False) w.st (w.st.opened env) := silents_opened
      have hs := h.safe.silents (fun _ => False.elim) hopen
      have hio : (w.st.opened env).slots[i]? = some sl := hi
      have hb : Core env u ∧ Barred env u x := by
        cases hr with
        | new h0 => exact absurd h0 hne.1
        | free _ _ _ hd =>
          exact ⟨(hd.frees hs (by decide) hio hu).1.core, hd.barred hs (by decide) hio hu hx⟩
        | move _ hn hm =>
          cases hm with
          | failed _ hp => exact absurd hp (hfree.resolve_left hn)
          | @done t _ k old hd hp hk hua hfr =>
            have hS : (w.st.opened env).Serves env (Served env)
                ((w.st.opened env).tls.reallocRequest newSize site) :=
              hc.serves (Or.inl ((if_neg hne.1).trans (if_neg hn)))
            obtain ⟨j, new, hP⟩ := hd.provided hs hS (show AllocType.malloc ≠ .internal by decide)
              hp (Or.inl hn)
            have hic : (t.copied p sl.userAddress old.userSize newSize).slots[i]? = some sl := by
              rw [State.copied_slots]
              exact (hP.others hio hu).1
            exact ⟨(hfr.frees hP.safe.copied (by decide) hic hu).1.core,
              hfr.barred hP.safe.copied (by decide) hic hu hx⟩
      exact (closed_ages hb.1).barred_nil hb.2
    · cases hf
  | _ => cases hf

end Free

section Sample

variable {allows : World → Call → Bool} {calls : List Call}

theorem runFrom_goes (hA : ∀ w c, allows w c = true → A w c)
    (h : runFrom env settings allows w calls = some w') : w.Goes env settings A w' := by
  induction calls generalizing w with
  | nil => cases h; exact .refl
  | cons c rest ih =>
    rw [runFrom] at h
    split at h
    · next ha =>
      split at h
      · next ptr s hr => exact .head ⟨c, hA w c ha, .intro hr⟩ (ih h)
      · cases h
    · cases h

def World.recycles (w : World) (settings : Settings) : Bool :=
  w.heap.head?.any fun b => decide (b.size = 100) &&
    (Call.free b.addr Site.unknown).tightly Env.sample w.st &&
    (Call.free b.addr Site.unknown).ends Env.sample settings w.st fun p t =>
      t.slots[b.slot]?.any (fun sl => sl.state = .allProtected) &&
      (runFrom Env.sample settings (fun w c => c.tightly Env.sample w.st)
        ⟨w.heapAfter Env.sample (.free b.addr Site.unknown) p t, t⟩
        [.malloc 100 Site.unknown]).any fun w' => decide (w'.heap.length = 1)

theorem exists_freed : ∃ (w : World) (b : Block) (c : Call) (p : ℕ) (t : State) (w' : World),
    TightRun Env.sample (Settings.sample (-1) (-1)) w ∧
    b ∈ w.heap ∧ b.size = 100 ∧ c.Tight Env.sample w.st ∧
    c.exec Env.sample (Settings.sample (-1) (-1)) w.st = .ok p t ∧ c.frees p = some b.addr ∧
    World.Goes Env.sample (Settings.sample (-1) (-1)) (fun w c => c.Tight Env.sample w.st)
      ⟨w.heapAfter Env.sample c p t, t⟩ w' ∧ w'.heap.length = 1 ∧
    ∃ (k : ℕ) (sl : Slot), t.slots[k]? = some sl ∧ sl.IsProtected := by
  obtain ⟨w, hw, hp⟩ := @exists_reach Env.sample (Settings.sample (-1) (-1))
    (fun w c => c.Tight Env.sample w.st) (fun w c => c.tightly Env.sample w.st)
    [.malloc 100 Site.unknown] (fun w => w.recycles (Settings.sample (-1) (-1)))
    (fun _ _ => Call.tight_of_tightly) (by decide +kernel)
  obtain ⟨b, hb, hp⟩ := (Option.any_eq_true ..).mp hp
  simp only [Bool.and_eq_true, decide_eq_true_eq] at hp
  obtain ⟨⟨hn, hc⟩, he⟩ := hp
  unfold Call.ends at he
  split at he
  · next p t he' =>
    obtain ⟨hsl, hgo⟩ := (Bool.and_eq_true _ _ ▸ he : _ ∧ _)
    obtain ⟨sl, hi, hs⟩ := (Option.any_eq_true ..).mp hsl
    obtain ⟨w', hr, hl⟩ := (Option.any_eq_true ..).mp hgo
    exact ⟨w, b, _, p, t, w', hw, List.mem_of_mem_head? hb, hn, Call.tight_of_tightly hc, he', rfl,
      runFrom_goes (fun _ _ => Call.tight_of_tightly) hr, of_decide_eq_true hl, b.slot, sl, hi,
      Or.inl (of_decide_eq_true hs)⟩
  · cases he

end Sample

section Run

/-- No run of tight requests gives access to a freed block, or hands any of its memory out, before
the memory is mapped again. -/
theorem freed_inaccessible (hset : settings.Tight env) (hw : TightRun env settings w)
    (hb : b ∈ w.heap) (hc : c.Tight env w.st) (he : c.exec env settings w.st = .ok p t)
    (hf : c.frees p = some b.addr) (hg : World.Goes env settings (fun w c => c.Tight env w.st)
      ⟨w.heapAfter env c p t, t⟩ w') :
    ∃ sl ev, w.st.slots[b.slot]? = some sl ∧
      (∀ x, b.addr ≤ x → x < b.addr + b.size → sl.Owns x) ∧ w'.st.trace = ev ++ t.trace ∧
      ∀ x, sl.Owns x → CreatedAt ev x ∨ w'.st.page env x ≠ .readWrite ∧
        ∀ b' ∈ w'.heap, ¬ (b'.addr ≤ x ∧ x < b'.addr + b'.size) := by
  have hm := TightRun.matched hset hw
  obtain ⟨sl, hi, hcar, hr, hp, -⟩ := hm.slot hb
  have hw₁ : TightRun env settings ⟨w.heapAfter env c p t, t⟩ := hw.step hc ⟨he⟩
  have hm' := TightRun.matched hset (hg.reach hw₁)
  obtain ⟨ev, ha⟩ := hg.ages hset (TightRun.matched hset hw₁).safe
  refine ⟨sl, ev, hi, fun x h1 h2 => ?_, ha.trace, fun x hx => ?_⟩
  · refine hp.owns_of_live hr (hp.live_of_inBlock hr ?_)
    exact ⟨by rw [hcar.addr]; exact h1, by rw [hcar.addr, hcar.size]; exact h2⟩
  · have hbar : Barred env t x :=
      hm.barred hc.proper hi hcar.user he (by rw [hcar.addr]; exact hf) hx
    refine (ha.barred trivial hbar).imp_right fun hbar' => ⟨hbar'.page, fun b' hb' hin => ?_⟩
    obtain ⟨sl', hi', hcar', hr', hp', -⟩ := hm'.slot hb'
    have hown : sl'.Owns x := hp'.owns_of_live hr' (hp'.live_of_inBlock hr'
      ⟨by rw [hcar'.addr]; exact hin.1, by rw [hcar'.addr, hcar'.size]; exact hin.2⟩)
    rcases hbar'.slot hi' hown with h | h <;> rw [hcar'.user.1] at h <;> cases h

theorem freed_inaccessible_sample : ∃ (w : World) (b : Block) (c : Call) (p : ℕ) (t : State)
    (w' : World) (sl : Slot) (ev : List Event),
    TightRun Env.sample (Settings.sample (-1) (-1)) w ∧ b ∈ w.heap ∧ b.size = 100 ∧
    c.exec Env.sample (Settings.sample (-1) (-1)) w.st = .ok p t ∧ c.frees p = some b.addr ∧
    w'.heap.length = 1 ∧ w.st.slots[b.slot]? = some sl ∧ w'.st.trace = ev ++ t.trace ∧
    ∀ x, sl.Owns x → CreatedAt ev x ∨ w'.st.page Env.sample x ≠ .readWrite := by
  obtain ⟨w, b, c, p, t, w', hw, hb, hn, hc, he, hf, hg, hl, -⟩ := exists_freed
  obtain ⟨sl, ev, hi, -, ht, hx⟩ :=
    freed_inaccessible (Settings.sample_tight _ _) hw hb hc he hf hg
  exact ⟨w, b, c, p, t, w', sl, ev, hw, hb, hn, he, hf, hl, hi, ht,
    fun x hx' => (hx x hx').imp_right And.left⟩

/-- In every run a slot that protects freed memory keeps protecting what of it is not deleted, or it
is emptied when all of it was deleted. -/
theorem protected_retires (hset : settings.Proper env) (hw : Run env settings w)
    (hk : w.st.slots[k]? = some sl) (hp : sl.IsProtected)
    (hg : w.Goes env settings (fun w c => c.Proper env w.st) w') :
    ∃ ev, w'.st.trace = ev ++ w.st.trace ∧ Retired k sl.Owns ev w'.st := by
  have hs := Run.safe hset hw
  obtain ⟨ev, ha⟩ := Acts.aged (T := False) (fun _ _ _ hr => ⟨hr, False.elim⟩) hs
    (hg.acts (run_driven hset) hs.tidy)
  exact ⟨ev, ha.trace, ha.retired hk hp⟩

theorem protected_retires_sample : ∃ (w w' : World) (k : ℕ) (sl : Slot) (ev : List Event),
    Run Env.sample (Settings.sample (-1) (-1)) w ∧ w.st.slots[k]? = some sl ∧ sl.IsProtected ∧
    w'.heap.length = 1 ∧ w'.st.trace = ev ++ w.st.trace ∧ Retired k sl.Owns ev w'.st := by
  obtain ⟨w, b, c, p, t, w', hw, -, -, hc, he, -, hg, hl, k, sl, hk, hp⟩ := exists_freed
  have hrun : Run Env.sample (Settings.sample (-1) (-1)) ⟨w.heapAfter Env.sample c p t, t⟩ :=
    (hw.step hc ⟨he⟩).mono _ _ fun _ _ h => h.proper
  obtain ⟨ev, ht, hr⟩ := protected_retires (Settings.sample_proper _ _) hrun hk hp
    (Relation.ReflTransGen.mono (fun _ _ ⟨c, hc, hs⟩ => ⟨c, hc.proper, hs⟩) _ _ hg)
  exact ⟨_, w', k, sl, ev, hrun, hk, hp, hl, ht, hr⟩

end Run

end Duma

import Duma.Runs.Stops

/-! # What the reports name

Every report of the no man's land, by whatever call it is made, names a slot that was overwritten
when the call began. So no call of a program that writes to its blocks alone is ended by one.
-/

namespace Duma

variable {env : Env} {settings : Settings} {w : World} {s t : State} {sl sl' : Slot} {e : Stop}
  {c : Call} {r : Request}

def Stop.isSlack : Stop → Bool
  | .abort (.slackBelow _) => true
  | .abort (.slackAbove _) => true
  | _ => false

theorem Stop.isSlack_iff : e.isSlack = true ↔ ∃ sl, SlackReport sl e := by
  constructor
  · intro h
    unfold Stop.isSlack at h
    split at h
    · exact ⟨_, Or.inl rfl⟩
    · exact ⟨_, Or.inr rfl⟩
    · cases h
  · rintro ⟨sl, rfl | rfl⟩ <;> rfl

theorem SlackReport.unique (h : SlackReport sl e) (h' : SlackReport sl' e) : sl = sl' := by
  rcases h with rfl | rfl <;> rcases h' with h' | h' <;> cases h' <;> rfl

/-- A stop is no report of the no man's land, or one of a slot that is overwritten in `s`. -/
def Truthful (env : Env) (s : State) (e : Stop) : Prop :=
  ∀ sl, SlackReport sl e → Overwritten env s sl

theorem truthful_of (h : e.isSlack = false) : Truthful env s e := fun sl hr => by
  rw [Stop.isSlack_iff.mpr ⟨sl, hr⟩] at h
  cases h

theorem Overwritten.truthful (ho : Overwritten env s sl) (hr : SlackReport sl e) :
    Truthful env s e := fun _ hr' => hr.unique hr' ▸ ho

section Calls

/-- What is checked by its address is a block. -/
def Call.Aimed (s : State) (c : Call) : Prop := ∀ p, c = .check p → p = 0 ∨
  ∃ (i : ℕ) (sl : Slot), s.slots[i]? = some sl ∧ sl.IsUser ∧ sl.userAddress = p

theorem Stop.ordinary.truthful (h : e.ordinary = true) : Truthful env s e := by
  refine truthful_of ?_
  cases hs : e.isSlack with
  | false => rfl
  | true =>
    obtain ⟨sl, rfl | rfl⟩ := Stop.isSlack_iff.mp hs <;> cases h

theorem Safe.allocate_truthful (h : Safe env s) (hS : s.Serves env (Served env) r)
    (hu : r.allocator.type ≠ .internal) (ho : r.protectAllocList = false → Open env s) :
    Ends (Truthful env s) (allocate env r) s := by
  have hserve : ∀ {n al : ℕ} {q : Request} {t : State},
      ServeStops env n al q (Truthful env s) t := fun {n al q t} =>
    ⟨fun _ e he => by cases he <;> exact truthful_of rfl, fun _ _ _ _ => truthful_of rfl,
      fun _ _ => truthful_of rfl⟩
  refine Wp.mono (allocate_wp (B := True) (A := Truthful env s) (fun _ _ _ => backs_id) backs_id hu
    h.tidy (fun _ => ⟨hS, h.core, h.live, ho⟩) fun _ => ?_) (fun _ _ _ => trivial)
    fun _ _ he => he trivial
  exact {
    malloc0 := fun _ _ => truthful_of rfl
    alignment := fun _ _ => truthful_of rfl
    slack := fun _ _ ho hr => ho.truthful hr
    serve := fun _ _ => hserve
    list := fun _ _ => hserve
    loops := fun _ _ _ => truthful_of rfl }

/-- The reports of every call are truthful. -/
theorem Call.exec_truthful (h : Safe env s) (hc : c.Proper env s) (hinit : c.initSettings s = none)
    (ha : c.Aimed s) : Ends (Truthful env s) (c.exec env settings) s := by
  refine Call.exec_ends h (fun _ => Stop.ordinary.truthful) (fun _ _ ho hr => ho.truthful hr) hc
    hinit (fun p hp => ?_) fun r hr => ?_
  · rcases ha p hp with rfl | ⟨i, sl, hi, hu, rfl⟩
    · exact Wp.ite (fun _ => trivial) fun h0 => absurd rfl h0
    · exact Wp.mono (h.check_wp hi hu) (fun _ _ _ => trivial) fun _ _ he =>
        Overwritten.truthful ⟨⟨i, hi⟩, hu.1, he.2⟩ he.1
  · obtain ⟨hin, hS, ho⟩ := hc.entered h hr
    refine Wp.mono (hin.allocate_truthful hS (Call.request_user hc.public hr) ho)
      (fun _ _ _ => trivial) fun e _ he sl hsl => ?_
    exact Silents.overwritten h silents_entered (he sl hsl)

end Calls

section Run

/-- In every run a call that is no initialisation, and checks no address but those of blocks, is
ended by a report of the no man's land only for a slot that was overwritten when the call began. In
a build that initialises itself and keeps no copies of strings this is the slot of a damaged block
that the program holds, and no call is so ended where the program writes to its blocks alone. -/
theorem reports_truthful (hset : settings.Proper env) (hw : Run env settings w)
    (hc : c.Proper env w.st) (hi : c.initSettings w.st = none) (ha : c.Aimed w.st)
    (he : c.exec env settings w.st = .error e t) (hr : SlackReport sl e) :
    Overwritten env w.st sl ∧
    (env.explicitInit = false → settings.copies = [] →
      ∃ b ∈ w.heap, b.size ≠ 0 ∧ w.Damaged b ∧ w.st.slots[b.slot]? = some sl) ∧
    ¬ Reach env settings (fun w c => c.Tame env w) w := by
  have hm := Run.matched hset hw
  have ho := (Call.exec_truthful hm.safe hc hi ha).stops he sl hr
  refine ⟨ho, fun hx hcop => ?_, fun ht => ?_⟩
  · exact hm.block_of_overwritten (Run.uniform hset hw) (Run.covered hx hcop hset hw) ho
  · exact (ht.clean hset).not_overwritten hm.safe.core ho

/-- A byte behind a block is overwritten, and the block is freed. -/
theorem reports_truthful_sample : ∃ (w : World) (sl : Slot),
    Run Env.sample (Settings.sample (-1) (-1)) w ∧ Overwritten Env.sample w.st sl ∧
    ∃ b ∈ w.heap, b.size ≠ 0 ∧ w.Damaged b ∧ w.st.slots[b.slot]? = some sl := by
  obtain ⟨w, hw, hp⟩ := exists_run (Settings.sample (-1) (-1))
    [.malloc 100 Site.unknown, .write 33558516 33558517 fun _ => 0]
    (fun w => match (Call.free 33558416 Site.unknown).exec Env.sample (Settings.sample (-1) (-1))
        w.st with
      | .error e _ => e.isSlack
      | .ok _ _ => false) (by decide +kernel)
  split at hp
  · next e t he =>
    obtain ⟨sl, hr⟩ := Stop.isSlack_iff.mp hp
    have hc : (Call.free 33558416 Site.unknown).Proper Env.sample w.st :=
      ⟨trivial, by rintro _ ⟨⟩, by rintro _ ⟨⟩⟩
    have ha : (Call.free 33558416 Site.unknown).Aimed w.st := by rintro _ ⟨⟩
    have h := reports_truthful (Settings.sample_proper _ _) hw hc rfl ha he hr
    exact ⟨w, sl, hw, h.1, h.2.1 rfl rfl⟩
  · cases hp

end Run

end Duma

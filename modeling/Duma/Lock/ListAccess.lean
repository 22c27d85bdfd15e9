import Duma.Lock.Calls

/-! # Slot accesses under the lock

The invariant says what the point that a thread has come to means for the shared variables. It
survives every step but those that disturb a thread in one of the two places where the code uses
the list without the lock: `malloc_usable_size`, and the start of `DUMA_delFrame`.
-/

namespace Duma.Interleaving

open Monitor

variable {ι : Type}

/-! ## The condition -/

def Thread.Lockless (th : Thread) : Prop := .get ∉ th.done

def Thread.Left (th : Thread) : Prop := ∃ v i, .access v i ∈ th.todo

def Thread.Using (th : Thread) : Prop := .protect .readWrite ∈ th.done ∧ th.Left

def Thread.Fetched (th : Thread) : Prop :=
  th.Lockless ∧ (.argList ∈ th.done ∨ ∃ v, .fetchSlot v ∈ th.done) ∧ th.Left

/-- Nobody closes the list while another thread uses it, one of them without the lock, and nobody
moves or resizes it while another thread has fetched it without the lock. -/
def State.Undisturbed (s : State ι) (t : ι) : Step → Prop
  | .protect .noAccess => ∀ u, u ≠ t →
    (s.threads t).Lockless ∨ (s.threads u).Lockless → ¬ (s.threads u).Using
  | .setList | .setSize => ∀ u, u ≠ t → ¬ (s.threads u).Fetched
  | _ => True

/-- The steps that no condition is about. -/
def Step.quiet : Step → Bool
  | .protect .noAccess | .setList | .setSize => false
  | _ => true

theorem Step.undisturbed (s : State ι) (t : ι) (a : Step) (h : a.quiet = true) :
    s.Undisturbed t a := by
  unfold State.Undisturbed
  split <;> simp_all [Step.quiet]

/-! ## What a point says about the shared variables -/

variable {q : Stage}

def Shared.Open (g : Shared ι) : Prop := ∀ j < g.allocListSize, g.pages g.allocList j = .readWrite

/-- What holds at a stage for a thread with these local variables that has or has not slots left
to access. -/
def Stage.Holds (g : Shared ι) (l : Locals) (more : Prop) : Stage → Prop
  | .arg => more → l.argList = g.allocList
  | .args => more → l.argList = g.allocList ∧ l.argSize = g.allocListSize
  | .inside => more → g.Open
  | .sized => l.newSize = g.allocListSize + 1 ∧ (more → g.Open)
  | .growing =>
    l.newSize = g.allocListSize + 1 ∧ l.oldAllocation = g.allocList ∧ (more → g.Open)
  | .created =>
    l.newSize = g.allocListSize + 1 ∧ l.oldAllocation = g.allocList ∧
      l.newAllocation ≠ g.allocList ∧ l.newAllocation < g.blocks ∧
      (more → g.Open ∧ ∀ j < l.newSize, g.pages l.newAllocation j = .readWrite)
  | .listSet =>
    l.newSize = g.allocListSize + 1 ∧ l.oldAllocation ≠ g.allocList ∧
      (more → ∀ j < l.newSize, g.pages g.allocList j = .readWrite)
  | .sizeSet | .moved => l.oldAllocation ≠ g.allocList ∧ (more → g.Open)
  | .out | .closing | .closed | .ended => True

/-- What the point of the thread `t` says. -/
structure Facts (g : Shared ι) (t : ι) (l : Locals) (more : Prop) (p : Point) : Prop where
  held : p.locked = true → g.lock = some (t, 1)
  free : p.locked = false → ∀ d, g.lock ≠ some (t, d)
  slots : more → ∀ v, p.known v = true → l.slot v = g.allocList
  stage : p.stage.Holds g l more

structure Follows (s : State ι) (t : ι) (p : Point) : Prop where
  reads : run Point.next .start (s.threads t).done = some p
  rest : ∃ r, run Point.next p (s.threads t).todo = some r ∧ r.Over
  traced : Traced (s.threads t).done p
  facts : Facts s.shared t (s.threads t).locals (s.threads t).Left p

structure Inv (s : State ι) : Prop where
  list : s.shared.allocList < s.shared.blocks
  count : ∀ t v, (s.threads t).locals.count v ≤ s.shared.slotCount
  follows : ∀ t, ∃ p, Follows s t p

variable {s s' : State ι} {C : State ι → ι → Step → Prop} {size slotsPerPage : ℕ}
variable {g g' : Shared ι} {t u : ι} {l l' : Locals} {more more' : Prop} {p p' : Point} {a : Step}

theorem Stage.Holds.fewer (h : q.Holds g l more) (hl : more' → more) : q.Holds g l more' := by
  cases q <;> simp only [Stage.Holds] at h ⊢ <;> tauto

theorem Stage.Holds.pages (h : q.Holds g l more) (hlist : g'.allocList = g.allocList)
    (hsize : g'.allocListSize = g.allocListSize) (hblocks : g.blocks ≤ g'.blocks)
    (hpages : more → q.opened = true → ∀ b j, g.pages b j = .readWrite → g'.pages b j = .readWrite) :
    q.Holds g' l more := by
  have hopen : more → q.opened = true → g.Open → g'.Open := by
    intro hl hq ho j hj
    rw [hlist]
    exact hpages hl hq _ _ (ho j (hsize ▸ hj))
  cases q <;> simp only [Stage.Holds, hlist, hsize] at h ⊢ <;> grind [Stage.opened]

theorem Facts.lockless (h : Facts g u l more p) (ht : p.stage.lockless = true)
    (hu : p.locked = false) (hlock : ∀ d, g'.lock ≠ some (u, d))
    (hlist : more → p.Fetches → g'.allocList = g.allocList ∧ g'.allocListSize = g.allocListSize)
    (hpages : more → p.stage.opened = true → g.Open → g'.Open) : Facts g' u l more p := by
  refine ⟨fun hp => ?_, fun _ => hlock, fun hl v hv => ?_, ?_⟩
  · rw [hu] at hp; cases hp
  · rw [h.slots hl v hv, (hlist hl (.inr (.inr (.inr (.inr ⟨v, hv⟩))))).1]
  · have hs := h.stage
    obtain ⟨lk, q, kn⟩ := p
    cases q with
    | out | ended | closing => trivial
    | arg => exact fun hl => (hs hl).trans (hlist hl (.inl rfl)).1.symm
    | args =>
      intro hl
      obtain ⟨h1, h2⟩ := hlist hl (.inr (.inl rfl))
      exact ⟨(hs hl).1.trans h1.symm, (hs hl).2.trans h2.symm⟩
    | inside => exact fun hl => hpages hl rfl (hs hl)
    | _ => cases ht

theorem Facts.fewer (h : Facts g t l more p) (hm : more' → more) : Facts g t l more' p :=
  ⟨h.held, h.free, fun hl => h.slots (hm hl), h.stage.fewer hm⟩

theorem Facts.turn {q : Stage} (h : Facts g t l more p) (hlock : g'.lock = g.lock)
    (hlist : g'.allocList = g.allocList) (hslot : l'.slot = l.slot) (hs : q.Holds g' l' more) :
    Facts g' t l' more { p with stage := q } := by
  refine ⟨fun hp => hlock.trans (h.held hp), fun hp => hlock ▸ h.free hp, fun hl v hv => ?_, hs⟩
  rw [hlist, hslot]
  exact h.slots hl v hv

theorem Follows.of_eq (h : Follows s u p) (hu : s'.threads u = s.threads u)
    (hf : Facts s'.shared u (s.threads u).locals (s.threads u).Left p) : Follows s' u p :=
  ⟨hu ▸ h.reads, hu ▸ h.rest, hu ▸ h.traced, hu ▸ hf⟩

theorem Inv.initial : Inv (State.initial ι size slotsPerPage) := by
  refine ⟨Nat.one_pos, fun _ _ => Nat.zero_le _, fun t => ⟨Point.start, rfl, ⟨_, rfl, rfl⟩,
    Traced.start, ⟨nofun, fun _ _ => nofun, ?_, trivial⟩⟩⟩
  rintro ⟨v, i, h⟩
  cases h

/-- Whenever a thread is about to read or write a slot, it is one of the current list, and the list
is mapped and accessible. -/
def State.AccessesHit (s : State ι) : Prop :=
  ∀ t v i w, (s.threads t).todo = .access v i :: w → i < (s.threads t).locals.count v →
    s.shared.Hits (s.threads t).locals v i

theorem Inv.accessesHit (hi : Inv s) : s.AccessesHit := by
  intro t v i w htodo hlt
  obtain ⟨p, hp⟩ := hi.follows t
  obtain ⟨r, hr, -⟩ := hp.rest
  rw [htodo, run_cons] at hr
  obtain ⟨p', hn, -⟩ := Option.bind_eq_some_iff.mp hr
  obtain ⟨⟨hsteady, hknown⟩, -⟩ := Option.ite_none_right_eq_some.mp hn
  have hleft : (s.threads t).Left := ⟨v, i, htodo ▸ List.mem_cons_self⟩
  refine ⟨hp.facts.slots hleft v hknown, hlt.trans_le (hi.count t v), ?_⟩
  have hs := hp.facts.stage
  cases hq : p.stage <;> rw [hq] at hs hsteady <;> cases hsteady
  · exact hs hleft
  · exact hs.2.2 hleft
  · exact (hs.2.2.2.2 hleft).1
  · exact hs.2 hleft

variable [DecidableEq ι]

/-- The thread itself makes a step that is in order. -/
theorem Facts.go (h : Facts g t l more p) (hb : g.allocList < g.blocks) (hn : p.next a = some p')
    (he : a.exec t g l = some (g', l')) : Facts g' t l' more p' := by
  have hs := h.stage
  cases a with
  | get =>
    simp only [Point.next, Option.ite_none_right_eq_some, Option.some.injEq] at hn
    obtain ⟨⟨hlk, hq⟩, rfl⟩ := hn
    cases hl : g.lock with
    | none =>
      simp only [Step.exec, hl, Option.some.injEq, Prod.mk.injEq] at he
      obtain ⟨rfl, rfl⟩ := he
      exact ⟨fun _ => rfl, fun h => Bool.noConfusion h, h.slots, by rw [hq]; trivial⟩
    | some o =>
      simp only [Step.exec, hl, Option.ite_none_right_eq_some] at he
      obtain ⟨rfl, -⟩ := he
      exact absurd hl (h.free hlk o.2)
  | release =>
    simp only [Point.next, Option.ite_none_right_eq_some, Option.some.injEq] at hn
    obtain ⟨⟨hlk, hq⟩, rfl⟩ := hn
    simp only [Step.exec, h.held hlk, if_pos, Option.some.injEq, Prod.mk.injEq] at he
    obtain ⟨rfl, rfl⟩ := he
    exact ⟨fun h => Bool.noConfusion h, fun _ _ h => absurd h (by simp),
      fun _ _ h => Bool.noConfusion h, trivial⟩
  | testList =>
    simp only [Point.next, Option.ite_none_left_eq_some, Option.some.injEq] at hn
    obtain ⟨-, rfl⟩ := hn
    cases he
    exact h
  | argList =>
    cases he
    simp only [Point.next] at hn
    split_ifs at hn <;> cases hn
    · exact h.turn rfl rfl rfl fun _ => rfl
    · exact h.turn rfl rfl rfl trivial
  | argSize =>
    cases he
    simp only [Point.next] at hn
    split_ifs at hn with hq hq' <;> cases hn
    · rw [hq] at hs
      exact h.turn rfl rfl rfl fun hm => ⟨hs hm, rfl⟩
    · exact h.turn (q := p.stage) rfl rfl rfl (hq' ▸ trivial)
  | protect r =>
    simp only [Step.exec, Option.ite_none_right_eq_some, Option.some.injEq, Prod.mk.injEq] at he
    obtain ⟨-, rfl, rfl⟩ := he
    cases r with
    | readWrite =>
      simp only [Point.next, Option.ite_none_right_eq_some, Option.some.injEq] at hn
      obtain ⟨hq, rfl⟩ := hn
      rw [hq] at hs
      refine h.turn rfl rfl rfl fun hm => ?_
      obtain ⟨h1, h2⟩ := hs hm
      intro j hj
      simp [h1, h2, show j < g.allocListSize from hj]
    | noAccess =>
      simp only [Point.next, Option.ite_none_right_eq_some, Option.some.injEq] at hn
      obtain ⟨hq, rfl⟩ := hn
      split_ifs with hlk
      · exact h.turn rfl rfl rfl trivial
      · exact ⟨fun h => Bool.noConfusion h, fun _ => h.free (Bool.eq_false_of_not_eq_true hlk),
          fun _ _ h => Bool.noConfusion h, trivial⟩
    | unmapped => cases hn
  | fetchSlot v =>
    cases he
    simp only [Point.next, Option.ite_none_right_eq_some, Option.some.injEq] at hn
    obtain ⟨-, rfl⟩ := hn
    refine ⟨h.held, h.free, fun hm u hu => ?_, ?_⟩
    · by_cases huv : u = v
      · rw [huv]
        exact Function.update_self ..
      · refine (Function.update_of_ne huv ..).trans (h.slots hm u ?_)
        change Function.update p.known v true u = true at hu
        rwa [Function.update_of_ne huv] at hu
    · cases hq : p.stage <;> rw [hq] at hs <;> exact hs
  | fetchCount v =>
    cases he
    simp only [Point.next, Option.ite_none_left_eq_some, Option.some.injEq] at hn
    obtain ⟨-, rfl⟩ := hn
    refine h.turn (q := p.stage) rfl rfl rfl ?_
    cases hq : p.stage <;> rw [hq] at hs <;> exact hs
  | access v i =>
    simp only [Step.exec, Option.ite_none_right_eq_some, Option.some.injEq, Prod.mk.injEq] at he
    obtain ⟨-, rfl, rfl⟩ := he
    simp only [Point.next, Option.ite_none_right_eq_some, Option.some.injEq] at hn
    obtain ⟨-, rfl⟩ := hn
    exact h
  | newSize =>
    cases he
    simp only [Point.next, Option.ite_none_right_eq_some, Option.some.injEq] at hn
    obtain ⟨⟨-, hq⟩, rfl⟩ := hn
    rw [hq] at hs
    exact h.turn rfl rfl rfl ⟨rfl, hs⟩
  | oldAllocation =>
    cases he
    simp only [Point.next, Option.ite_none_right_eq_some, Option.some.injEq] at hn
    obtain ⟨hq, rfl⟩ := hn
    rw [hq] at hs
    exact h.turn rfl rfl rfl ⟨hs.1, rfl, hs.2⟩
  | newAllocation =>
    cases he
    simp only [Point.next, Option.ite_none_right_eq_some, Option.some.injEq] at hn
    obtain ⟨hq, rfl⟩ := hn
    rw [hq] at hs
    obtain ⟨h1, h2, h3⟩ := hs
    refine h.turn rfl rfl rfl ⟨h1, h2, hb.ne', Nat.lt_succ_self _, fun hm => ⟨?_, ?_⟩⟩
    · intro j hj
      exact (congrFun (Function.update_of_ne hb.ne ..) j).trans (h3 hm j hj)
    · intro j hj
      exact (congrFun (Function.update_self ..) j).trans (if_pos hj)
  | setList =>
    cases he
    simp only [Point.next, Option.ite_none_right_eq_some, Option.some.injEq] at hn
    obtain ⟨hq, rfl⟩ := hn
    rw [hq] at hs
    obtain ⟨h1, h2, h3, -, h5⟩ := hs
    exact ⟨h.held, h.free, fun _ _ h => Bool.noConfusion h, h1, h2.trans_ne h3.symm,
      fun hm => (h5 hm).2⟩
  | setSize =>
    cases he
    simp only [Point.next, Option.ite_none_right_eq_some, Option.some.injEq] at hn
    obtain ⟨hq, rfl⟩ := hn
    rw [hq] at hs
    exact h.turn rfl rfl rfl ⟨hs.2.1, hs.2.2⟩
  | addSlots =>
    cases he
    simp only [Point.next, Option.ite_none_right_eq_some, Option.some.injEq] at hn
    obtain ⟨hq, rfl⟩ := hn
    rw [hq] at hs
    exact h.turn rfl rfl rfl hs
  | deleteOld r =>
    cases he
    simp only [Point.next, Option.ite_none_right_eq_some, Option.some.injEq] at hn
    obtain ⟨hq, rfl⟩ := hn
    rw [hq] at hs
    refine h.turn rfl rfl rfl fun hm j hj => ?_
    exact (congrFun (Function.update_of_ne hs.1.symm ..) j).trans (hs.2 hm j hj)

section Exec

variable (he : a.exec t g l = some (g', l'))
include he

theorem Step.exec_lock (hu : u ≠ t) (d : ℕ) : g'.lock = some (u, d) ↔ g.lock = some (u, d) := by
  cases a with
  | get | release =>
    simp only [Step.exec] at he
    split at he <;> grind
  | protect | access =>
    simp only [Step.exec, Option.ite_none_right_eq_some, Option.some.injEq, Prod.mk.injEq] at he
    obtain ⟨-, rfl, -⟩ := he
    rfl
  | _ =>
    cases he
    rfl

theorem Step.exec_get_release (ha : a = .get ∨ a = .release) :
    ∃ k, g' = { g with lock := k } ∧ l' = l := by
  rcases ha with rfl | rfl <;> simp only [Step.exec] at he <;> split at he
  · cases he
    exact ⟨_, rfl, rfl⟩
  · obtain ⟨-, he⟩ := Option.ite_none_right_eq_some.mp he
    cases he
    exact ⟨_, rfl, rfl⟩
  · obtain ⟨-, he⟩ := Option.ite_none_right_eq_some.mp he
    cases he
    exact ⟨_, rfl, rfl⟩
  · cases he

theorem Step.exec_list (ha : a ≠ .setList) : g'.allocList = g.allocList := by
  cases a with
  | setList => exact absurd rfl ha
  | _ => simp only [Step.exec] at he; grind

theorem Step.exec_size (ha : a ≠ .setSize) : g'.allocListSize = g.allocListSize := by
  cases a with
  | setSize => exact absurd rfl ha
  | _ => simp only [Step.exec] at he; grind

theorem Step.exec_blocks : g.blocks ≤ g'.blocks := by
  cases a with
  | _ => simp only [Step.exec] at he; grind

theorem Step.exec_slotCount : g.slotCount ≤ g'.slotCount := by
  cases a with
  | _ => simp only [Step.exec] at he; grind

theorem Step.exec_count (hc : ∀ v, l.count v ≤ g.slotCount) (v : Ptr) :
    l'.count v ≤ g'.slotCount := by
  cases a with
  | fetchCount u =>
    cases he
    by_cases hv : v = u
    · rw [hv]
      exact (Function.update_self ..).le
    · exact le_of_eq_of_le (Function.update_of_ne hv _ l.count) (hc v)
  | get | release =>
    obtain ⟨k, rfl, rfl⟩ := Step.exec_get_release he (by simp)
    exact hc v
  | protect | access =>
    simp only [Step.exec, Option.ite_none_right_eq_some, Option.some.injEq, Prod.mk.injEq] at he
    obtain ⟨-, rfl, rfl⟩ := he
    exact hc v
  | addSlots =>
    cases he
    exact (hc v).trans (Nat.le_add_right ..)
  | _ =>
    cases he
    exact hc v

theorem Step.exec_pages {b j : ℕ} (h : g.pages b j = .readWrite)
    (hp : a ≠ .protect .noAccess ∧ a ≠ .protect .unmapped)
    (hd : ∀ r, a = .deleteOld r → b ≠ l.oldAllocation) (hn : a = .newAllocation → b ≠ g.blocks) :
    g'.pages b j = .readWrite := by
  cases a with
  | protect r =>
    simp only [Step.exec, Option.ite_none_right_eq_some, Option.some.injEq, Prod.mk.injEq] at he
    obtain ⟨-, rfl, -⟩ := he
    cases r with
    | readWrite =>
      by_cases hbl : b = l.argList
      · rw [hbl] at h ⊢
        simp [h]
      · exact (congrFun (Function.update_of_ne hbl ..) j).trans h
    | noAccess => exact absurd rfl hp.1
    | unmapped => exact absurd rfl hp.2
  | newAllocation =>
    cases he
    exact (congrFun (Function.update_of_ne (hn rfl) ..) j).trans h
  | deleteOld r =>
    cases he
    exact (congrFun (Function.update_of_ne (hd r rfl) ..) j).trans h
  | get | release =>
    obtain ⟨k, rfl, rfl⟩ := Step.exec_get_release he (by simp)
    exact h
  | access =>
    simp only [Step.exec, Option.ite_none_right_eq_some, Option.some.injEq, Prod.mk.injEq] at he
    obtain ⟨-, rfl, -⟩ := he
    exact h
  | _ =>
    cases he
    exact h

end Exec

theorem Point.next_lockless (hn : p.next a = some p') (hl : p.locked = false)
    (hq : p.stage.lockless = true) : a ≠ .setList ∧ a ≠ .setSize ∧ a ≠ .newAllocation ∧
      (∀ r, a ≠ .deleteOld r) ∧ a ≠ .protect .unmapped := by
  cases a <;> simp only [Point.next] at hn <;> grind [Stage.lockless]

/-- Another thread makes a step that is in order and leaves this one undisturbed. -/
theorem Facts.other {lu : Locals} {pu : Point} (hu : u ≠ t) (hb : g.allocList < g.blocks)
    (h : Facts g u lu more pu) (hul : pu.locked = false → pu.stage.lockless = true)
    (ht : Facts g t l more' p) (htl : p.locked = false → p.stage.lockless = true)
    (hn : p.next a = some p') (he : a.exec t g l = some (g', l'))
    (hdeny : a = .protect .noAccess → p.locked = false ∨ pu.locked = false → more →
      pu.stage.opened = false)
    (hset : a = .setList ∨ a = .setSize → pu.locked = false → more → ¬ pu.Fetches) :
    Facts g' u lu more pu := by
  have hlock := Step.exec_lock he hu
  have hun : a ≠ .protect .unmapped := by
    rintro rfl
    cases hn
  cases hpu : pu.locked with
  | false =>
    refine h.lockless (hul hpu) hpu (fun d => (hlock d).not.mpr (h.free hpu d)) ?_ ?_
    · intro hm hf
      exact ⟨Step.exec_list he fun ha => hset (.inl ha) hpu hm hf,
        Step.exec_size he fun ha => hset (.inr ha) hpu hm hf⟩
    · intro hm ho hopen j hj
      have hf : pu.Fetches := by
        have hq := hul hpu
        cases hst : pu.stage <;> rw [hst] at hq ho <;> cases hq <;> cases ho
        exact .inr (.inr (.inl hst))
      rw [Step.exec_size he fun ha => hset (.inr ha) hpu hm hf] at hj
      rw [Step.exec_list he fun ha => hset (.inl ha) hpu hm hf]
      refine Step.exec_pages he (hopen j hj) ⟨fun ha => ?_, hun⟩ ?_ fun _ => hb.ne
      · rw [hdeny ha (.inr hpu) hm] at ho
        cases ho
      · rintro r rfl
        simp only [Point.next, Option.ite_none_right_eq_some] at hn
        have hs := ht.stage
        rw [hn.1] at hs
        exact hs.1.symm
  | true =>
    have hp : p.locked = false := by
      by_contra hp
      have := (h.held hpu).symm.trans (ht.held (Bool.eq_true_of_not_eq_false hp))
      exact hu (congrArg Prod.fst (Option.some.inj this))
    obtain ⟨h1, h2, h3, h4, -⟩ := Point.next_lockless hn hp (htl hp)
    refine ⟨fun _ => (hlock 1).mpr (h.held hpu), fun hf => ?_, fun hm v hv => ?_, ?_⟩
    · rw [hpu] at hf
      cases hf
    · rw [Step.exec_list he h1]
      exact h.slots hm v hv
    · refine h.stage.pages (Step.exec_list he h1) (Step.exec_size he h2) (Step.exec_blocks he) ?_
      intro hm ho b j hbj
      refine Step.exec_pages he hbj ⟨fun ha => ?_, hun⟩ (fun r hr => absurd hr (h4 r))
        fun ha => absurd ha h3
      rw [hdeny ha (.inl hp) hm] at ho
      cases ho

/-! ## Every interleaving -/

theorem Inv.next (hi : Inv s) (h : s.Next State.Undisturbed s') : Inv s' := by
  cases h with
  | @call t e w hw hidle =>
    refine ⟨hi.list, fun u v => ?_, fun u => ?_⟩
    · by_cases hut : u = t
      · subst hut
        simpa using hi.count u v
      · simpa [Function.update_of_ne hut] using hi.count u v
    · obtain ⟨p, hp⟩ := hi.follows u
      by_cases hut : u = t
      · subst hut
        obtain ⟨r, hr, hover⟩ := hp.rest
        rw [hidle] at hr
        obtain rfl : p = r := Option.some.inj hr
        obtain ⟨r, hover', hr⟩ := e.goes Point.start rfl w hw
        refine ⟨Point.start, ?_⟩
        constructor
        · simp [Function.update_self]
        · exact ⟨r, by simpa [Function.update_self] using hr, hover'⟩
        · simpa [Function.update_self] using Traced.start
        · exact ⟨nofun, fun _ => hp.facts.free hover, fun _ _ => nofun, trivial⟩
      · exact ⟨p, hp.of_eq (Function.update_of_ne hut ..) hp.facts⟩
  | @go t a w g l htodo hC he =>
    obtain ⟨p, hp⟩ := hi.follows t
    obtain ⟨r, hr, hover⟩ := hp.rest
    rw [htodo, run_cons] at hr
    obtain ⟨p', hn, hr⟩ := Option.bind_eq_some_iff.mp hr
    have hleft : (∃ v i, .access v i ∈ w) → (s.threads t).Left := by
      rintro ⟨v, i, h⟩
      exact ⟨v, i, htodo ▸ List.mem_cons_of_mem a h⟩
    refine ⟨?_, fun u => ?_, fun u => ?_⟩
    · by_cases ha : a = .setList
      · subst ha
        cases he
        simp only [Point.next, Option.ite_none_right_eq_some] at hn
        have hs := hp.facts.stage
        rw [hn.1] at hs
        exact hs.2.2.2.1
      · rw [Step.exec_list he ha]
        exact hi.list.trans_le (Step.exec_blocks he)
    · by_cases hut : u = t
      · subst hut
        simpa using Step.exec_count he (hi.count u)
      · intro v
        simpa [Function.update_of_ne hut] using (hi.count u v).trans (Step.exec_slotCount he)
    · by_cases hut : u = t
      · subst hut
        have hf := (hp.facts.go hi.list hn he).fewer hleft
        refine ⟨p', ?_, ⟨r, ?_, hover⟩, ?_, ?_⟩
        · simpa using (run_concat hp.reads).trans hn
        · simpa using hr
        · simpa using hp.traced.next hn
        · simpa [Thread.Left] using hf
      · obtain ⟨pu, hpu⟩ := hi.follows u
        have hf := hpu.facts.other hut hi.list hpu.traced.lockless hp.facts hp.traced.lockless hn he
          ?_ ?_
        · exact ⟨pu, hpu.of_eq (Function.update_of_ne hut ..) hf⟩
        · rintro rfl hlk hm
          by_contra ho
          refine hC u hut ?_ ⟨hpu.traced.opened (Bool.eq_true_of_not_eq_false ho), hm⟩
          refine hlk.imp (fun h => hp.traced.get h ?_) fun h => hpu.traced.get h ?_
          · intro hq
            simp [Point.next, hq] at hn
          · intro hq
            exact ho (by rw [hq]; rfl)
        · intro ha hlk hm hf
          have hq : pu.stage ≠ .ended := by
            intro hq
            have hk := hpu.traced.ended hq
            simp [Point.Fetches, hq, hk] at hf
          have hth : ¬ (s.threads u).Fetched := by
            rcases ha with rfl | rfl
            exacts [hC u hut, hC u hut]
          exact hth ⟨hpu.traced.get hlk hq, hpu.traced.fetched hlk hf, hm⟩

theorem Reach.inv (h : Reach State.Undisturbed size slotsPerPage s) : Inv s := by
  induction h with
  | initial => exact Inv.initial
  | next _ h ih => exact ih.next h

/-- In every interleaving in which nobody closes, moves or resizes the list under a thread that
uses it without the lock, every slot access hits the current list while it is open. -/
theorem accesses_hit (h : Reach State.Undisturbed size slotsPerPage s) : s.AccessesHit :=
  h.inv.accessesHit

def State.advance (quiet : Step → Bool) (s : State ι) (t : ι) : Option (State ι) :=
  match (s.threads t).todo with
  | [] => none
  | a :: w =>
    if quiet a then
      (a.exec t s.shared (s.threads t).locals).map fun r =>
        ⟨r.1, Function.update s.threads t ⟨(s.threads t).done ++ [a], w, r.2⟩⟩
    else none

theorem Reach.schedule {quiet : Step → Bool} (hC : ∀ s t a, quiet a = true → C s t a)
    (ts : List ι) (h : Reach C size slotsPerPage s)
    (hs : ts.foldlM (State.advance quiet) s = some s') : Reach C size slotsPerPage s' := by
  induction ts generalizing s with
  | nil =>
    obtain rfl := Option.some.inj hs
    exact h
  | cons t ts ih =>
    obtain ⟨s₁, h₁, hs⟩ := Option.bind_eq_some_iff.mp hs
    refine ih (h.next ?_) hs
    unfold State.advance at h₁
    split at h₁
    · cases h₁
    · next a w htodo =>
      obtain ⟨hq, h₁⟩ := Option.ite_none_right_eq_some.mp h₁
      obtain ⟨r, hr, rfl⟩ := Option.map_eq_some_iff.mp h₁
      exact .go htodo (hC _ _ _ hq) hr

theorem word_mem (w : List Step) : w ∈ word w := rfl

theorem map_access_mem (v : Ptr) (is : List ℕ) : is.map (Step.access v) ∈ accesses v := by
  intro a ha
  obtain ⟨i, -, rfl⟩ := List.mem_map.mp ha
  exact ⟨i, rfl⟩

theorem mem_slotForUserAddress {w : List Step} (h : w ∈ loop .lookup) :
    w ∈ slotForUserAddress := by
  rw [← List.append_nil w]
  exact Language.append_mem_mul h ((Language.mem_add ..).mpr (.inl rfl))

/-- The word of a call that opens the list, reads these slots and closes it. -/
def scan (first : List Step) (v : Ptr) (is : List ℕ) (last : List Step) : List Step :=
  first ++ [.argList, .argSize, .protect .readWrite] ++
    ([.fetchSlot v, .fetchCount v] ++ is.map (.access v)) ++
    ([.argList, .argSize, .protect .noAccess] ++ last)

/-- `duma_checkAll` is about to look at the first slot. -/
theorem accesses_hit_checkAll : ∃ s : State (Fin 2), Reach State.Undisturbed 1 64 s ∧
    (s.threads 0).todo.head? = some (.access .allSlacks 0) ∧ s.AccessesHit := by
  have hw : scan [.get] .allSlacks (List.range 64) [.release] ∈ Entry.checkAll.words :=
    Language.append_mem_mul (Language.append_mem_mul (Language.append_mem_mul (word_mem _)
      (word_mem _)) (Language.append_mem_mul (word_mem _) (map_access_mem _ _)))
      (Language.append_mem_mul (word_mem _) (word_mem _))
  have hi : Reach State.Undisturbed 1 64 (State.initial (Fin 2) 1 64) := .initial
  have hr := Reach.schedule Step.undisturbed (List.replicate 6 0)
    (hi.next (.call (t := 0) hw rfl)) rfl
  exact ⟨_, hr, rfl, accesses_hit hr⟩

/-- Thread 0 has opened the list in `malloc_usable_size`; thread 1 runs `duma_check` and closes it;
thread 0 goes on to look its pointer up. -/
theorem accesses_hit_counterexample : ∃ s : State (Fin 2),
    Reach (fun _ _ _ => True) 1 64 s ∧ ¬ s.AccessesHit := by
  have h0 : scan [.testList] .lookup [0, 1, 2, 2] [] ∈ Entry.mallocUsableSize.words :=
    (Language.mem_add ..).mpr (.inr (Language.append_mem_mul
      (Language.append_mem_mul (Language.append_mem_mul (word_mem _) (word_mem _))
        (Language.append_mem_mul (word_mem _) (map_access_mem _ _))) (word_mem _)))
  have h1 : scan [.get] .lookup [0, 1, 2, 2] [.release] ∈ Entry.check.words :=
    (Language.mem_add ..).mpr (.inr (Language.append_mem_mul
      (Language.append_mem_mul (Language.append_mem_mul (word_mem _) (word_mem _))
        (mem_slotForUserAddress (Language.append_mem_mul (word_mem _) (map_access_mem _ _))))
      (Language.append_mem_mul (word_mem _) (word_mem _))))
  have hi : Reach (fun _ _ _ => True) 1 64 (State.initial (Fin 2) 1 64) := .initial
  have hC : ∀ (s : State (Fin 2)) (t : Fin 2) (a : Step), (fun _ => true) a = true → True :=
    fun _ _ _ _ => trivial
  have hr := Reach.schedule hC (List.replicate 6 0 ++ List.replicate 14 1)
    ((hi.next (.call (t := 0) h0 rfl)).next (.call (t := 1) h1 rfl)) rfl
  refine ⟨_, hr, fun h => ?_⟩
  have hclosed := (h 0 .lookup 0 _ rfl (by decide)).2.2 0 (by decide)
  revert hclosed
  decide

end Duma.Interleaving

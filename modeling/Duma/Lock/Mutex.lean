import Duma.Model.Semaphore
import Mathlib.Tactic.Common

/-! # Correctness of the recursive lock

The invariant says what the shared variables hold at each point of the thread that has the mutex,
and that all other threads are outside or waiting.
-/

namespace Duma.Semaphore

variable {s s' : State} {t u h : ℕ} {a : Action}

def Pc.Outside : Pc → Prop
  | .idle | .getEntry | .trylock | .readOwner | .mutexLock => True
  | _ => False

structure Thread.Waiting (th : Thread) : Prop where
  outside : th.pc.Outside
  depth : th.depth = 0

/-- What the shared variables hold when the thread `h` with the mutex is at a point, at depth `d`. -/
def State.Holding (s : State) (h : ℕ) (d : ℤ) : Pc → Prop
  | .idle | .getEntry | .trylock | .readOwner | .incNest | .relEntry | .testDepth | .decDepth =>
    s.mutextid = h ∧ s.locknr = d ∧ s.semDepth = d ∧ 0 < d
  | .setOwner => s.mutextid = 0 ∧ s.locknr = 0 ∧ s.semDepth = 0 ∧ d = 0
  | .setNest => s.mutextid = h ∧ s.locknr = 0 ∧ s.semDepth = 0 ∧ d = 0
  | .incDepth => s.mutextid = h ∧ s.locknr = d + 1 ∧ s.semDepth = d ∧ 0 ≤ d
  | .decNest => s.mutextid = h ∧ s.locknr = d ∧ s.semDepth = d - 1 ∧ 0 < d
  | .testNest => s.mutextid = h ∧ s.locknr = d - 1 ∧ s.semDepth = d - 1 ∧ 0 < d
  | .clearOwner => s.mutextid = h ∧ s.locknr = 0 ∧ s.semDepth = 0 ∧ d = 1
  | .mutexUnlock => s.mutextid = 0 ∧ s.locknr = 0 ∧ s.semDepth = 0 ∧ d = 1
  | .mutexLock | .aborted => False

structure Inv (s : State) : Prop where
  inited : s.semInited = true
  inInit : s.semInInit = false
  free : s.mutex = none → s.mutextid = 0 ∧ s.locknr = 0 ∧ s.semDepth = 0
  held : ∀ h, s.mutex = some h → h ≠ 0 ∧ s.Holding h (s.threads h).depth (s.threads h).pc
  waiting : ∀ t, s.mutex ≠ some t → (s.threads t).Waiting

theorem Inv.initial : Inv State.initial :=
  ⟨rfl, rfl, fun _ => ⟨rfl, rfl, rfl⟩, fun _ h => (by cases h), fun _ _ => ⟨trivial, rfl⟩⟩

theorem Inv.owner (hi : Inv s) (ht : t ≠ 0) (h : s.mutextid = t) : s.mutex = some t := by
  cases hm : s.mutex with
  | none => exact absurd ((hi.free hm).1.symm.trans h).symm ht
  | some o =>
    have hh := (hi.held o hm).2
    cases hpc : (s.threads o).pc <;> simp only [hpc, State.Holding] at hh <;> grind

theorem Inv.goto_outside (hi : Inv s) (hm : s.mutex ≠ some t) {pc : Pc} (hpc : pc.Outside) :
    Inv (s.goto t pc) := by
  refine ⟨hi.inited, hi.inInit, hi.free, fun h hh => ?_, fun u hu => ?_⟩
  · have hne : h ≠ t := by
      rintro rfl
      exact hm hh
    simp only [State.goto, Function.update_of_ne hne]
    exact hi.held h hh
  · by_cases hut : u = t
    · subst hut
      simp only [State.goto, Function.update_self]
      exact ⟨hpc, (hi.waiting u hu).depth⟩
    · simp only [State.goto, Function.update_of_ne hut]
      exact hi.waiting u hu

theorem Inv.of_holder {th : Thread} (ht : t ≠ 0) (h1 : s.semInited = true)
    (h2 : s.semInInit = false) (hm : s.mutex = some t) (hh : s.Holding t th.depth th.pc)
    (hw : ∀ u, u ≠ t → (s.threads u).Waiting) :
    Inv { s with threads := Function.update s.threads t th } := by
  refine ⟨h1, h2, fun h => ?_, fun h hh' => ?_, fun u hu => ?_⟩
  · rw [hm] at h; cases h
  · obtain rfl : t = h := Option.some.inj (hm.symm.trans hh')
    simp only [Function.update_self]
    exact ⟨ht, hh⟩
  · have hut : u ≠ t := by
      rintro rfl
      exact hu hm
    simp only [Function.update_of_ne hut]
    exact hw u hut

theorem Inv.of_unlock {d : ℕ} (hi : Inv s) (hm : s.mutex = some t)
    (h0 : s.mutextid = 0 ∧ s.locknr = 0 ∧ s.semDepth = 0) (hd : d = 0) :
    Inv ({ s with mutex := none }.finish t d) := by
  refine ⟨hi.inited, hi.inInit, fun _ => h0, fun h hh => (by cases hh), fun u _ => ?_⟩
  by_cases hut : u = t
  · subst hut
    simp only [State.finish, Function.update_self]
    exact ⟨trivial, hd⟩
  · simp only [State.finish, Function.update_of_ne hut]
    refine hi.waiting u fun h => hut ?_
    exact Option.some.inj (h.symm.trans hm)

/-- A step of the thread that has the mutex. -/
theorem Inv.step_holder (hi : Inv s) (ht : t ≠ 0) (hm : s.mutex = some t)
    (h : s.step t a = some s') : Inv s' := by
  have hh := (hi.held t hm).2
  have go : ∀ {s₁ : State} {th : Thread}, s₁.semInited = s.semInited →
      s₁.semInInit = s.semInInit → s₁.mutex = s.mutex → s₁.threads = s.threads →
      s₁.Holding t th.depth th.pc →
      Inv { s₁ with threads := Function.update s₁.threads t th } := fun h1 h2 h3 h4 h5 =>
    Inv.of_holder ht (h1.trans hi.inited) (h2.trans hi.inInit) (h3.trans hm) h5 fun u hu =>
      h4 ▸ hi.waiting u fun h' => hu (Option.some.inj (h'.symm.trans hm))
  cases a with
  | get =>
    obtain ⟨hpc, h⟩ := Option.ite_none_right_eq_some.mp h
    obtain rfl := Option.some.inj h
    rw [hpc] at hh
    exact go rfl rfl rfl rfl hh
  | rel =>
    obtain ⟨⟨hpc, -⟩, h⟩ := Option.ite_none_right_eq_some.mp h
    obtain rfl := Option.some.inj h
    rw [hpc] at hh
    exact go rfl rfl rfl rfl hh
  | go =>
    cases hpc : (s.threads t).pc <;> rw [hpc] at hh <;>
      simp only [State.step, hpc, reduceCtorEq] at h
    case getEntry | relEntry =>
      rw [hi.inInit, if_neg Bool.false_ne_true, hi.inited] at h
      obtain rfl := Option.some.inj h
      exact go rfl rfl rfl rfl hh
    case trylock =>
      rw [hm] at h
      obtain rfl := Option.some.inj h
      exact go rfl rfl rfl rfl hh
    case mutexLock =>
      rw [hm] at h
      cases h
    case readOwner =>
      rw [if_pos hh.1] at h
      obtain rfl := Option.some.inj h
      exact go rfl rfl rfl rfl hh
    case incNest =>
      obtain ⟨h1, h2, h3, h4⟩ := hh
      obtain rfl := Option.some.inj h
      exact go rfl rfl rfl rfl ⟨h1, by rw [← h2], h3, by omega⟩
    case setOwner =>
      obtain ⟨-, h2, h3, h4⟩ := hh
      obtain rfl := Option.some.inj h
      exact go rfl rfl rfl rfl ⟨rfl, h2, h3, h4⟩
    case setNest =>
      obtain ⟨h1, h2, h3, h4⟩ := hh
      obtain rfl := Option.some.inj h
      have hge : (0 : ℤ) ≤ (s.threads t).depth := by omega
      exact go rfl rfl rfl rfl ⟨h1, by rw [h4]; rfl, by rw [h4]; exact h3, hge⟩
    case incDepth =>
      obtain ⟨h1, h2, h3, h4⟩ := hh
      obtain rfl := Option.some.inj h
      have hd : (((s.threads t).depth + 1 : ℕ) : ℤ) = (s.threads t).depth + 1 := by omega
      refine go rfl rfl rfl rfl ⟨h1, ?_, ?_, ?_⟩ <;> rw [hd]
      exacts [h2, by rw [← h3], by omega]
    case testDepth =>
      obtain ⟨h1, h2, h3, h4⟩ := hh
      rw [if_neg (by omega)] at h
      obtain rfl := Option.some.inj h
      exact go rfl rfl rfl rfl ⟨h1, h2, h3, h4⟩
    case decDepth =>
      obtain ⟨h1, h2, h3, h4⟩ := hh
      obtain rfl := Option.some.inj h
      exact go rfl rfl rfl rfl ⟨h1, h2, by rw [← h3], h4⟩
    case decNest =>
      obtain ⟨h1, h2, h3, h4⟩ := hh
      obtain rfl := Option.some.inj h
      exact go rfl rfl rfl rfl ⟨h1, by rw [← h2], h3, h4⟩
    case testNest =>
      obtain ⟨h1, h2, h3, h4⟩ := hh
      split at h
      · next h0 =>
        obtain rfl := Option.some.inj h
        have hd : ((s.threads t).depth : ℤ) = 1 := by omega
        have hsd : s.semDepth = 0 := by omega
        exact go rfl rfl rfl rfl ⟨h1, h0, hsd, hd⟩
      · next h0 =>
        obtain rfl := Option.some.inj h
        have hd : (((s.threads t).depth - 1 : ℕ) : ℤ) = (s.threads t).depth - 1 := by omega
        refine go rfl rfl rfl rfl ⟨h1, ?_, ?_, ?_⟩ <;> rw [hd]
        exacts [h2, h3, by omega]
    case clearOwner =>
      obtain ⟨-, h2, h3, h4⟩ := hh
      obtain rfl := Option.some.inj h
      exact go rfl rfl rfl rfl ⟨rfl, h2, h3, h4⟩
    case mutexUnlock =>
      obtain ⟨h1, h2, h3, h4⟩ := hh
      obtain rfl := Option.some.inj h
      exact Inv.of_unlock hi hm ⟨h1, h2, h3⟩ (by omega)

/-- A step of a thread that does not have the mutex. -/
theorem Inv.step_outside (hi : Inv s) (ht : t ≠ 0) (hm : s.mutex ≠ some t)
    (h : s.step t a = some s') : Inv s' := by
  have hw := hi.waiting t hm
  have acquire : s.mutex = none → Inv ({ s with mutex := some t }.goto t .setOwner) := fun hn => by
    obtain ⟨h1, h2, h3⟩ := hi.free hn
    refine Inv.of_holder (s := { s with mutex := some t }) ht hi.inited hi.inInit rfl
      ⟨h1, h2, h3, ?_⟩ fun u hu => hi.waiting u (by rw [hn]; nofun)
    change ((s.threads t).depth : ℤ) = 0
    rw [hw.depth]
    rfl
  cases a with
  | get =>
    obtain ⟨-, h⟩ := Option.ite_none_right_eq_some.mp h
    obtain rfl := Option.some.inj h
    exact hi.goto_outside hm trivial
  | rel =>
    obtain ⟨⟨-, hd⟩, -⟩ := Option.ite_none_right_eq_some.mp h
    exact absurd hw.depth (Nat.ne_of_gt hd)
  | go =>
    have ho := hw.outside
    cases hpc : (s.threads t).pc <;> rw [hpc] at ho <;>
      simp only [State.step, hpc, reduceCtorEq] at h
    case getEntry =>
      rw [hi.inInit, if_neg Bool.false_ne_true, hi.inited] at h
      obtain rfl := Option.some.inj h
      exact hi.goto_outside hm trivial
    case trylock | mutexLock =>
      cases hn : s.mutex with
      | none =>
        rw [hn] at h
        obtain rfl := Option.some.inj h
        exact acquire hn
      | some o =>
        rw [hn] at h
        cases h <;> exact hi.goto_outside hm trivial
    case readOwner =>
      rw [if_neg fun h' => hm (hi.owner ht h')] at h
      obtain rfl := Option.some.inj h
      exact hi.goto_outside hm trivial
    all_goals exact ho.elim

theorem Inv.step (hi : Inv s) (ht : t ≠ 0) (h : s.step t a = some s') : Inv s' := by
  by_cases hm : s.mutex = some t
  exacts [hi.step_holder ht hm h, hi.step_outside ht hm h]

theorem Reach.inv (h : Reach s) : Inv s := by
  induction h with
  | initial => exact Inv.initial
  | step _ ht h ih => exact ih.step ht h

theorem Inv.mutex_of_depth (hi : Inv s) (hd : 0 < (s.threads t).depth) : s.mutex = some t := by
  by_contra hm
  exact Nat.ne_of_gt hd (hi.waiting t hm).depth

theorem Inv.not_aborted (hi : Inv s) (t : ℕ) : (s.threads t).pc ≠ .aborted := by
  intro hpc
  by_cases hm : s.mutex = some t
  · have := (hi.held t hm).2
    rw [hpc] at this
    exact this
  · have := (hi.waiting t hm).outside
    rw [hpc] at this
    exact this

/-- A thread that has the mutex can always go on, and never waits for it. -/
theorem Inv.runs (hi : Inv s) (hm : s.mutex = some t) (hpc : (s.threads t).pc ≠ .idle) :
    (s.threads t).pc ≠ .mutexLock ∧ ∃ s', s.step t .go = some s' := by
  have hh := (hi.held t hm).2
  have hna := hi.not_aborted t
  cases h : (s.threads t).pc <;> rw [h] at hh hpc hna <;>
    simp only [State.step, h, hi.inited, hi.inInit, hm, ne_eq, reduceCtorEq, not_false_eq_true,
      not_true, true_and, if_true, if_false, Bool.false_eq_true, Option.some.injEq, exists_eq',
      State.Holding] at hh hpc hna ⊢
  split <;> exact ⟨_, rfl⟩

theorem Inv.step_effect (hi : Inv s) (h : s.step t a = some s') :
    (s.threads t).pc = .mutexUnlock ∧ s'.mutex = none ∧
        (s'.threads t).depth = (s.threads t).depth - 1 ∨
      (s'.mutex = s.mutex ∨ s'.mutex = some t) ∧
        ((s.threads t).depth ≤ (s'.threads t).depth ∨
          (s.threads t).pc = .testNest ∧ s.locknr ≠ 0) := by
  cases a with
  | get =>
    obtain ⟨-, h⟩ := Option.ite_none_right_eq_some.mp h
    obtain rfl := Option.some.inj h
    exact Or.inr ⟨Or.inl rfl, Or.inl (by simp [State.goto])⟩
  | rel =>
    obtain ⟨-, h⟩ := Option.ite_none_right_eq_some.mp h
    obtain rfl := Option.some.inj h
    exact Or.inr ⟨Or.inl rfl, Or.inl (by simp [State.goto])⟩
  | go =>
    cases hpc : (s.threads t).pc <;>
      simp only [State.step, hpc, hi.inited, hi.inInit, if_true, if_false, Bool.false_eq_true,
        reduceCtorEq] at h
    case mutexUnlock =>
      obtain rfl := Option.some.inj h
      exact Or.inl ⟨rfl, rfl, by simp [State.finish]⟩
    case testNest =>
      split at h
      · obtain rfl := Option.some.inj h
        exact Or.inr ⟨Or.inl rfl, Or.inl (by simp [State.goto])⟩
      · next h0 =>
        obtain rfl := Option.some.inj h
        exact Or.inr ⟨Or.inl rfl, Or.inr ⟨rfl, h0⟩⟩
    case trylock | mutexLock =>
      cases hm : s.mutex <;> rw [hm] at h <;> cases h <;>
        exact Or.inr ⟨by simp [State.goto, hm], Or.inl (by simp [State.goto])⟩
    all_goals
      obtain rfl := Option.some.inj h
      exact Or.inr ⟨Or.inl (by simp [State.goto, State.finish, hi.inited, hi.inInit]),
        Or.inl (by simp [State.goto, State.finish])⟩

theorem Inv.unlock_iff (hi : Inv s) (h : s.step t a = some s') :
    s.mutex ≠ none ∧ s'.mutex = none ↔ (s.threads t).depth = 1 ∧ (s'.threads t).depth = 0 := by
  have holder : ∀ pc, (s.threads t).pc = pc → ¬ pc.Outside → s.mutex = some t := fun pc hpc ho => by
    by_contra hm
    exact ho (hpc ▸ (hi.waiting t hm).outside)
  rcases hi.step_effect h with ⟨hpc, hm', hd⟩ | ⟨hm', hd⟩
  · have hm := holder _ hpc id
    have hh := (hi.held t hm).2
    rw [hpc] at hh
    have hd1 : (s.threads t).depth = 1 := by exact_mod_cast hh.2.2.2
    simp [hm, hm', hd, hd1]
  · constructor
    · rintro ⟨hne, hnone⟩
      rcases hm' with hm' | hm' <;> rw [hm'] at hnone
      exacts [absurd hnone hne, nomatch hnone]
    · rintro ⟨h1, h0⟩
      rcases hd with hd | ⟨hpc, hnr⟩
      · omega
      · have hh := (hi.held t (holder _ hpc id)).2
        rw [hpc] at hh
        have := hh.2.1
        omega

def Pc.InGet : Pc → Prop
  | .getEntry | .trylock | .readOwner | .incNest | .mutexLock | .setOwner | .setNest
  | .incDepth => True
  | _ => False

/-- The lock excludes other threads, lets its owner nest, is released at the outermost release
and never aborts, and its counters agree with the owner's depth when no call is under way. -/
theorem lock_correct (hr : Reach s) :
    (∀ t u, 0 < (s.threads t).depth → 0 < (s.threads u).depth → t = u) ∧
    (∀ t, 0 < (s.threads t).depth → s.mutex = some t ∧ ((s.threads t).pc.InGet →
      (s.threads t).pc ≠ .mutexLock ∧ ∃ s', s.step t .go = some s')) ∧
    (∀ t a s', s.step t a = some s' → (s.mutex ≠ none ∧ s'.mutex = none ↔
      (s.threads t).depth = 1 ∧ (s'.threads t).depth = 0)) ∧
    (∀ t, (s.threads t).pc ≠ .aborted) ∧
    ((∀ t, (s.threads t).pc = .idle) →
      (∃ t, s.mutex = some t ∧ 0 < (s.threads t).depth ∧ s.semDepth = (s.threads t).depth ∧
        s.locknr = (s.threads t).depth) ∨
      s.mutex = none ∧ s.semDepth = 0 ∧ s.locknr = 0 ∧ ∀ t, (s.threads t).depth = 0) := by
  have hi := hr.inv
  refine ⟨fun t u ht hu => ?_, fun t ht => ⟨hi.mutex_of_depth ht, fun hpc => ?_⟩,
    fun t a s' h => hi.unlock_iff h, hi.not_aborted, fun hidle => ?_⟩
  · exact Option.some.inj ((hi.mutex_of_depth ht).symm.trans (hi.mutex_of_depth hu))
  · refine hi.runs (hi.mutex_of_depth ht) fun h => ?_
    rw [h] at hpc
    exact hpc
  · cases hm : s.mutex with
    | some t =>
      have hh := (hi.held t hm).2
      rw [hidle t] at hh
      exact Or.inl ⟨t, rfl, by exact_mod_cast hh.2.2.2, hh.2.2.1, hh.2.1⟩
    | none =>
      obtain ⟨-, h2, h3⟩ := hi.free hm
      exact Or.inr ⟨rfl, h3, h2, fun t => (hi.waiting t (by rw [hm]; nofun)).depth⟩

/-- The run in which thread 1 gets the lock. -/
theorem lock_correct_get : ∃ s, Reach s ∧ (s.threads 1).depth = 1 ∧ s.mutex = some 1 := by
  have h1 : (1 : ℕ) ≠ 0 := by decide
  have hr := ((((((Reach.initial.step (t := 1) (a := .get) h1 rfl).step (a := .go) h1 rfl).step
    (a := .go) h1 rfl).step (a := .go) h1 rfl).step (a := .go) h1 rfl).step (a := .go) h1 rfl)
  exact ⟨_, hr, rfl, ((lock_correct hr).2.1 1 (by decide)).1⟩

end Duma.Semaphore

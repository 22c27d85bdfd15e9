import Duma.Lock.Mutex
import Duma.Model.Delete

/-! # Nested deletes

The loop of each delete expression ends with the lock, the stack of places and the flag as it has to
find them; an inner loop leaves the entries of the outer ones, which set the flag again anyway.
-/

namespace Duma.Delete

open Semaphore (Inv State Action)

variable {thread L r fuel : ℕ} {s s' : State} {w w' u u' : World} {site : Site} {m : M Unit}
variable {es es' : List Event} {t : Deletes} {Q : List Event → World → Prop}

/-- The thread is in none of the lock's functions, at a depth, and no other thread has the mutex. -/
structure Holds (thread L : ℕ) (s : State) : Prop where
  inv : Inv s
  idle : (s.threads thread).pc = .idle
  depth : (s.threads thread).depth = L
  mutex : s.mutex = none ∨ s.mutex = some thread

theorem finishCall_inv {n : ℕ} (hth : thread ≠ 0) (hi : Inv s) (h : finishCall thread n s = some s') :
    Inv s' ∧ (s'.threads thread).pc = .idle := by
  induction n generalizing s with
  | zero => cases h
  | succ n ih =>
    rw [finishCall] at h
    split at h
    · next hpc =>
      obtain rfl := Option.some.inj h
      exact ⟨hi, hpc⟩
    · obtain ⟨u, hu, h⟩ := Option.bind_eq_some_iff.mp h
      exact ih (hi.step hth hu) h

theorem call_inv {a : Action} (hth : thread ≠ 0) (hi : Inv s) (h : call thread a s = some s') :
    Inv s' ∧ (s'.threads thread).pc = .idle := by
  obtain ⟨u, hu, h⟩ := Option.bind_eq_some_iff.mp h
  exact finishCall_inv hth (hi.step hth hu) h

theorem call_get (hth : thread ≠ 0) (h : Holds thread L s) :
    ∃ s', call thread .get s = some s' ∧ Holds thread (L + 1) s' := by
  obtain ⟨hi, hpc, hd, hm⟩ := h
  have hrun : ∃ s', call thread .get s = some s' ∧ (s'.threads thread).depth = L + 1 := by
    rcases hm with hm | hm
    · simp [call, finishCall, State.step, State.goto, State.finish, hpc, hi.inited, hi.inInit, hm, hd]
    · have hh := (hi.held thread hm).2
      rw [hpc] at hh
      obtain ⟨h1, h2, h3, h4⟩ := hh
      simp [call, finishCall, State.step, State.goto, State.finish, hpc, hi.inited, hi.inInit, hm, hd,
        h1]
  obtain ⟨s', hs', hd'⟩ := hrun
  obtain ⟨hi', hpc'⟩ := call_inv hth hi hs'
  exact ⟨s', hs', hi', hpc', hd', Or.inr (hi'.mutex_of_depth (by omega))⟩

theorem call_rel (hth : thread ≠ 0) (h : Holds thread (L + 1) s) :
    ∃ s', call thread .rel s = some s' ∧ Holds thread L s' := by
  obtain ⟨hi, hpc, hd, -⟩ := h
  have hm := hi.mutex_of_depth (t := thread) (by omega)
  have hh := (hi.held thread hm).2
  rw [hpc, hd] at hh
  obtain ⟨h1, h2, h3, h4⟩ := hh
  have hrun : ∃ s', call thread .rel s = some s' ∧ (s'.threads thread).depth = L ∧
      (s'.mutex = none ∨ s'.mutex = some thread) := by
    by_cases hL : L = 0
    · subst hL
      simp [call, finishCall, State.step, State.goto, State.finish, hpc, hi.inited, hi.inInit, hm, hd,
        h1, h2, h3]
    · have hpos : ¬ ((L : ℤ) + 1 ≤ 0) := by omega
      simp [call, finishCall, State.step, State.goto, State.finish, hpc, hi.inited, hi.inInit, hm, hd,
        h1, h2, h3, hL, hpos]
  obtain ⟨s', hs', hd', hm'⟩ := hrun
  obtain ⟨hi', hpc'⟩ := call_inv hth hi hs'
  exact ⟨s', hs', hi', hpc', hd', hm'⟩

theorem Holds.locked (h : Holds thread (L + 1) s) : s.mutex = some thread :=
  h.inv.mutex_of_depth (by rw [h.depth]; exact Nat.succ_pos L)

def World.after (w : World) (sem : State) (es : List Event) : World :=
  { w with sem, log := w.log ++ es }

theorem World.after_after : (w.after s es).after s' es' = w.after s' (es ++ es') := by
  simp only [World.after, List.append_assoc]

theorem get_eq (hth : thread ≠ 0) (h : Holds thread L w.sem) :
    ∃ sem, Holds thread (L + 1) sem ∧
      DUMA_get_sem thread w = .ok () (w.after sem [⟨.get, w.running, L + 1, some thread⟩]) := by
  obtain ⟨sem, hc, hs⟩ := call_get hth h
  refine ⟨sem, hs, ?_⟩
  refine (Wp.bind_of_ok (rfl : (get : M World) w = .ok w w)).trans ?_
  rw [hc, ← hs.depth, ← hs.locked]
  rfl

theorem rel_eq (hth : thread ≠ 0) (h : Holds thread (L + 1) w.sem) (retval : ℤ) :
    ∃ sem, Holds thread L sem ∧
      DUMA_rel_sem thread retval w =
        .ok retval (w.after sem [⟨.release, w.running, L, sem.mutex⟩]) := by
  obtain ⟨sem, hc, hs⟩ := call_rel hth h
  refine ⟨sem, hs, ?_⟩
  refine (Wp.bind_of_ok (rfl : (get : M World) w = .ok w w)).trans ?_
  rw [hc, ← hs.depth]
  rfl

/-- All events have at least `r` bodies running and at least depth `L`, and the thread has the mutex
where it is inside. -/
def Above (thread r L : ℕ) (es : List Event) : Prop :=
  ∀ e ∈ es, r ≤ e.running ∧ L ≤ e.depth ∧ (0 < e.depth → e.mutex = some thread)

/-- The lock is held throughout the bodies that are not among the first `r`. -/
def Covered (thread r L : ℕ) (es : List Event) : Prop :=
  Above thread r L es ∧ ∀ e ∈ es, r < e.running → L < e.depth

/-- What is left as it was: the depth, the stack of places and the number of running bodies. -/
structure Balanced (thread L : ℕ) (w w' : World) (es : List Event) : Prop where
  holds : Holds thread L w'.sem
  delPtr : w'.DelPtr = w.DelPtr
  running : w'.running = w.running
  below : ∀ i ≤ w.DelPtr, w'.DelFile i = w.DelFile i ∧ w'.DelLine i = w.DelLine i
  log : w'.log = w.log ++ es

theorem Above.append (h : Above thread r L es) (h' : Above thread r L es') :
    Above thread r L (es ++ es') :=
  fun e he => (List.mem_append.mp he).elim (h e) (h' e)

theorem Covered.append (h : Covered thread r L es) (h' : Covered thread r L es') :
    Covered thread r L (es ++ es') :=
  ⟨h.1.append h'.1, fun e he => (List.mem_append.mp he).elim (h.2 e) (h'.2 e)⟩

theorem Above.covered (h : Above thread r (L + 1) es) : Covered thread r L es :=
  ⟨fun e he => ⟨(h e he).1, Nat.le_of_succ_le (h e he).2.1, (h e he).2.2⟩, fun e he _ => (h e he).2.1⟩

theorem covered_singleton {e : Event} (hr : e.running = r) (hL : L ≤ e.depth)
    (hm : 0 < e.depth → e.mutex = some thread) : Covered thread r L [e] := by
  constructor
  · intro e' he
    obtain rfl := List.mem_singleton.mp he
    exact ⟨Nat.le_of_eq hr.symm, hL, hm⟩
  · intro e' he hlt
    obtain rfl := List.mem_singleton.mp he
    omega

theorem Balanced.trans (h : Balanced thread L w u es) (h' : Balanced thread L u w' es') :
    Balanced thread L w w' (es ++ es') where
  holds := h'.holds
  delPtr := h'.delPtr.trans h.delPtr
  running := h'.running.trans h.running
  below i hi := by
    obtain ⟨h1, h2⟩ := h.below i hi
    obtain ⟨h3, h4⟩ := h'.below i (h.delPtr.symm ▸ hi)
    exact ⟨h3.trans h1, h4.trans h2⟩
  log := by rw [h'.log, h.log, List.append_assoc]

def bodies (es : List Event) : List Site :=
  es.filterMap fun e => match e.kind with
    | .body site => some site
    | _ => none

/-- The calls of `operator delete` in order: whose they are, and the place that they pass on. -/
def operatorDeletes (es : List Event) : List (Site × Site) :=
  es.filterMap fun e => match e.kind with
    | .operatorDelete own file line => some (own, ⟨file, line⟩)
    | _ => none

theorem bodies_append : bodies (es ++ es') = bodies es ++ bodies es' := List.filterMap_append

theorem operatorDeletes_append :
    operatorDeletes (es ++ es') = operatorDeletes es ++ operatorDeletes es' := List.filterMap_append

def World.pushed (w : World) (site : Site) : World :=
  { w with
    Magic := 1
    DelPtr := w.DelPtr + 1
    DelFile := Function.update w.DelFile (w.DelPtr + 1) site.file
    DelLine := Function.update w.DelLine (w.DelPtr + 1) site.line }

theorem delete_head (hth : thread ≠ 0) (h : Holds thread L w.sem)
    (hd : w.DelPtr + 1 < DUMA_MAX_DEL_DEPTH) :
    ∃ sem, Holds thread (L + 1 + 1) sem ∧ delete thread fuel site m w = rounds thread m fuel
      ((w.after sem [⟨.get, w.running, L + 1, some thread⟩,
        ⟨.get, w.running, L + 1 + 1, some thread⟩]).pushed site) := by
  obtain ⟨sem1, hs1, hg1⟩ := get_eq hth h
  obtain ⟨sem2, hs2, hg2⟩ :=
    @get_eq _ _ (w.after sem1 [⟨.get, w.running, L + 1, some thread⟩]) hth hs1
  rw [World.after_after] at hg2
  refine ⟨sem2, hs2, (Wp.bind_of_ok hg1).trans ((Wp.bind_of_ok hg2).trans ?_)⟩
  refine (Wp.bind_of_ok rfl).trans ((Wp.bind_of_ok rfl).trans ?_)
  exact congrFun (if_neg (Nat.not_le.mpr hd)) _

/-- The loop runs its body once: the test behind it reads the flag that the body's round has
cleared. -/
theorem rounds_eq (hth : thread ≠ 0) (h : Holds thread (L + 1 + 1) w.sem) (hM : w.Magic = 1)
    (hf : 2 ≤ fuel)
    (hm : ∀ sem, Holds thread (L + 1) sem → ∃ u es,
      m (w.after sem [⟨.release, w.running, L + 1, some thread⟩]) = .ok () u ∧
        Holds thread (L + 1) u.sem ∧ Q es u) :
    ∃ u es, Q es u ∧ ∃ sem, Holds thread L sem ∧ rounds thread m fuel w = .ok ()
      ({ u with Magic := 0, DelPtr := u.DelPtr - 1 }.after sem
        [⟨.release, u.running, L, sem.mutex⟩]) := by
  obtain ⟨fuel, rfl⟩ := Nat.exists_eq_add_of_le' hf
  obtain ⟨sem1, hs1, hr1⟩ := rel_eq hth h w.Magic
  rw [hs1.locked, hM] at hr1
  obtain ⟨u, es, hu, hs, hQ⟩ := hm sem1 hs1
  obtain ⟨sem2, hs2, hr2⟩ := @rel_eq _ _ { u with Magic := 0, DelPtr := u.DelPtr - 1 } hth hs 0
  refine ⟨u, es, hQ, sem2, hs2, ?_⟩
  refine (Wp.bind_of_ok (rfl : (get : M World) w = .ok w w)).trans ?_
  rw [hM]
  refine (Wp.bind_of_ok hr1).trans ?_
  rw [if_pos (by decide)]
  refine (Wp.bind_of_ok hu).trans ((Wp.bind_of_ok rfl).trans ?_)
  refine (Wp.bind_of_ok rfl).trans ((Wp.bind_of_ok hr2).trans ?_)
  exact congrFun (if_neg (by decide)) _

/-- The macro around a body that is balanced one level deeper and finds its own place on top of the
stack. -/
theorem delete_eq (hth : thread ≠ 0) (h : Holds thread L w.sem)
    (hd : w.DelPtr + 1 < DUMA_MAX_DEL_DEPTH) (hf : 2 ≤ fuel) {bs : List Site} {ds : List (Site × Site)}
    (hm : ∀ u : World, Holds thread (L + 1) u.sem → u.DelPtr = w.DelPtr + 1 →
      u.DelFile u.DelPtr = site.file → u.DelLine u.DelPtr = site.line → u.running = w.running →
      ∃ u' es, m u = .ok () u' ∧ Balanced thread (L + 1) u u' es ∧
        Above thread w.running (L + 1) es ∧ bodies es = bs ∧ operatorDeletes es = ds) :
    ∃ w' es, delete thread fuel site m w = .ok () w' ∧ Balanced thread L w w' es ∧
      Covered thread w.running L es ∧ bodies es = bs ∧ operatorDeletes es = ds ∧ w'.Magic = 0 := by
  obtain ⟨sem, hs, hhead⟩ := @delete_head _ _ fuel _ site m hth h hd
  set e1 : Event := ⟨.get, w.running, L + 1, some thread⟩
  set e2 : Event := ⟨.get, w.running, L + 1 + 1, some thread⟩
  set e3 : Event := ⟨.release, w.running, L + 1, some thread⟩
  have hbody : ∀ sem', Holds thread (L + 1) sem' → ∃ u es,
      m (((w.after sem [e1, e2]).pushed site).after sem' [e3]) = .ok () u ∧
        Holds thread (L + 1) u.sem ∧ (u.DelPtr = w.DelPtr + 1 ∧ u.running = w.running ∧
          (∀ i ≤ w.DelPtr, u.DelFile i = w.DelFile i ∧ u.DelLine i = w.DelLine i) ∧
          u.log = w.log ++ ([e1, e2, e3] ++ es) ∧ Above thread w.running (L + 1) es ∧
          bodies es = bs ∧ operatorDeletes es = ds) := by
    intro sem' hs'
    obtain ⟨u, es, hu, hb, hrest⟩ := hm (((w.after sem [e1, e2]).pushed site).after sem' [e3]) hs' rfl
      (Function.update_self _ _ _) (Function.update_self _ _ _) rfl
    refine ⟨u, es, hu, hb.holds, hb.delPtr, hb.running, fun i hi => ?_, ?_, hrest⟩
    · obtain ⟨h1, h2⟩ := hb.below i (Nat.le_succ_of_le hi)
      have hne : i ≠ w.DelPtr + 1 := by omega
      exact ⟨h1.trans (Function.update_of_ne hne _ _), h2.trans (Function.update_of_ne hne _ _)⟩
    · rw [hb.log]
      simp only [World.after, World.pushed, List.append_assoc, List.cons_append, List.nil_append]
  obtain ⟨u, es, ⟨hptr, hr, hbelow, hlog, ha, hbs, hds⟩, sem', hs', hrun⟩ :=
    rounds_eq hth hs rfl hf hbody
  set e4 : Event := ⟨.release, u.running, L, sem'.mutex⟩
  refine ⟨_, [e1, e2, e3] ++ es ++ [e4], hhead.trans hrun, ⟨hs', ?_, hr, hbelow, ?_⟩, ?_, ?_, ?_, rfl⟩
  · exact congrArg (· - 1) hptr
  · exact (congrArg (· ++ [e4]) hlog).trans (by simp only [List.append_assoc])
  · have h1 : Covered thread w.running L [e1] := covered_singleton rfl (Nat.le_succ L) fun _ => rfl
    have h2 : Covered thread w.running L [e2] :=
      covered_singleton rfl (Nat.le_add_right L 2) fun _ => rfl
    have h3 : Covered thread w.running L [e3] := covered_singleton rfl (Nat.le_succ L) fun _ => rfl
    have h4 : Covered thread w.running L [e4] := covered_singleton hr (Nat.le_refl L) fun hpos =>
      hs'.inv.mutex_of_depth (hs'.depth.symm ▸ hpos)
    exact (((h1.append h2).append h3).append ha.covered).append h4
  · rw [bodies_append, bodies_append, hbs]
    exact List.append_nil bs
  · rw [operatorDeletes_append, operatorDeletes_append, hds]
    exact List.append_nil ds

theorem operatorDelete_eq (hth : thread ≠ 0) (h : Holds thread (L + 1) w.sem) :
    ∃ w' es, operatorDelete thread site w = .ok () w' ∧ Balanced thread (L + 1) w w' es ∧
      Above thread w.running (L + 1) es ∧ bodies es = [] ∧
      operatorDeletes es = [(site, ⟨w.DelFile w.DelPtr, w.DelLine w.DelPtr⟩)] := by
  set e0 : Event := ⟨.operatorDelete site (w.DelFile w.DelPtr) (w.DelLine w.DelPtr), w.running, L + 1,
    some thread⟩ with he0
  have hrec : record thread (.operatorDelete site (w.DelFile w.DelPtr) (w.DelLine w.DelPtr)) w =
      .ok () (w.after w.sem [e0]) := by
    rw [he0, ← h.depth, ← h.locked]
    rfl
  obtain ⟨sem1, hs1, hg⟩ := @get_eq _ _ (w.after w.sem [e0]) hth h
  rw [World.after_after] at hg
  obtain ⟨sem2, hs2, hr⟩ := @rel_eq _ _ (w.after sem1
    ([e0] ++ [⟨.get, w.running, L + 1 + 1, some thread⟩])) hth hs1 0
  rw [World.after_after, hs2.locked] at hr
  refine ⟨w.after sem2 ([e0] ++ [⟨.get, w.running, L + 1 + 1, some thread⟩] ++
    [⟨.release, w.running, L + 1, some thread⟩]), _, ?_,
    ⟨hs2, rfl, rfl, fun i _ => ⟨rfl, rfl⟩, rfl⟩, ?_, rfl, rfl⟩
  · refine (Wp.bind_of_ok (rfl : (get : M World) w = .ok w w)).trans ?_
    refine (Wp.bind_of_ok hrec).trans ((Wp.bind_of_ok hg).trans ?_)
    exact Wp.bind_of_ok hr
  · have h0 : Above thread w.running (L + 1) [e0] :=
      (covered_singleton rfl (Nat.le_refl _) fun _ => rfl).1
    refine (h0.append ?_).append ?_
    · exact (covered_singleton rfl (Nat.le_succ _) fun _ => rfl).1
    · exact (covered_singleton rfl (Nat.le_refl _) fun _ => rfl).1

theorem body_eq {bs : List Site} {ds : List (Site × Site)} (h : Holds thread (L + 1) w.sem)
    (hm : ∃ u es, m ({ w with running := w.running + 1 }.after w.sem
        [⟨.body site, w.running + 1, L + 1, some thread⟩]) = .ok () u ∧
      Balanced thread (L + 1) ({ w with running := w.running + 1 }.after w.sem
        [⟨.body site, w.running + 1, L + 1, some thread⟩]) u es ∧
      Above thread (w.running + 1) (L + 1) es ∧ bodies es = bs ∧ operatorDeletes es = ds) :
    ∃ w' es, body thread site m w = .ok () w' ∧ Balanced thread (L + 1) w w' es ∧
      Above thread w.running (L + 1) es ∧ bodies es = site :: bs ∧ operatorDeletes es = ds := by
  set e0 : Event := ⟨.body site, w.running + 1, L + 1, some thread⟩ with he0
  obtain ⟨u, es, hu, hb, ha, hbs, hds⟩ := hm
  have hrec : record thread (.body site) { w with running := w.running + 1 } =
      .ok () ({ w with running := w.running + 1 }.after w.sem [e0]) := by
    rw [he0, ← h.depth, ← h.locked]
    rfl
  refine ⟨{ u with running := u.running - 1 }, [e0] ++ es, ?_, ?_, ?_, ?_, ?_⟩
  · refine (Wp.bind_of_ok rfl).trans ((Wp.bind_of_ok hrec).trans ?_)
    exact (Wp.bind_of_ok hu).trans rfl
  · refine ⟨hb.holds, hb.delPtr, ?_, hb.below, hb.log.trans (List.append_assoc _ _ _)⟩
    exact congrArg (· - 1) hb.running
  · have h0 : Above thread w.running (L + 1) [e0] := by
      intro e he
      obtain rfl := List.mem_singleton.mp he
      exact ⟨Nat.le_succ _, Nat.le_refl _, fun _ => rfl⟩
    exact h0.append fun e he => ⟨Nat.le_of_succ_le (ha e he).1, (ha e he).2⟩
  · rw [bodies_append, hbs]
    rfl
  · rw [operatorDeletes_append, hds]
    rfl

/-- The places of the delete expressions in the order in which their bodies start. -/
def Deletes.sites : Deletes → List Site
  | .none => []
  | .object site destructor rest => site :: (destructor.sites ++ rest.sites)
  | .null site rest => site :: rest.sites

/-- The places of those that delete an object, in the order in which their bodies end. -/
def Deletes.objects : Deletes → List Site
  | .none => []
  | .object site destructor rest => destructor.objects ++ [site] ++ rest.objects
  | .null _ rest => rest.objects

def Deletes.depth : Deletes → ℕ
  | .none => 0
  | .object _ destructor rest => max (destructor.depth + 1) rest.depth
  | .null _ rest => max 1 rest.depth

/-- What delete expressions do, by induction on the tree: a destructor runs one level deeper. -/
theorem run_eq (hth : thread ≠ 0) (hf : 2 ≤ fuel) (h : Holds thread L w.sem)
    (hd : w.DelPtr + t.depth < DUMA_MAX_DEL_DEPTH) :
    ∃ w' es, t.run thread fuel w = .ok () w' ∧ Balanced thread L w w' es ∧
      Covered thread w.running L es ∧ bodies es = t.sites ∧
      operatorDeletes es = t.objects.map (fun site => (site, site)) ∧
      (t ≠ .none → w'.Magic = 0) := by
  induction t generalizing w L with
  | none => exact ⟨w, [], rfl, ⟨h, rfl, rfl, fun _ _ => ⟨rfl, rfl⟩, (List.append_nil _).symm⟩,
      ⟨nofun, nofun⟩, rfl, rfl, fun hne => absurd rfl hne⟩
  | object site destructor rest ihd ihr =>
    have hdd : w.DelPtr + 1 + destructor.depth < DUMA_MAX_DEL_DEPTH ∧
        w.DelPtr + rest.depth < DUMA_MAX_DEL_DEPTH := by
      rw [Deletes.depth] at hd
      omega
    have hbody : ∀ u : World, Holds thread (L + 1) u.sem → u.DelPtr = w.DelPtr + 1 →
        u.DelFile u.DelPtr = site.file → u.DelLine u.DelPtr = site.line → u.running = w.running →
        ∃ u' es, body thread site (do destructor.run thread fuel; operatorDelete thread site) u =
            .ok () u' ∧ Balanced thread (L + 1) u u' es ∧ Above thread w.running (L + 1) es ∧
          bodies es = site :: destructor.sites ∧
          operatorDeletes es = (destructor.objects ++ [site]).map (fun site => (site, site)) := by
      intro u hu hptr hfile hline hr
      rw [← hr]
      refine body_eq hu ?_
      set v := ({ u with running := u.running + 1 } : World).after u.sem
        [⟨.body site, u.running + 1, L + 1, some thread⟩] with hv
      obtain ⟨v1, es1, hv1, hb1, hc1, hbs1, hds1, -⟩ := @ihd (L + 1) v hu (hptr.symm ▸ hdd.1)
      obtain ⟨v2, es2, hv2, hb2, ha2, hbs2, hds2⟩ :=
        @operatorDelete_eq thread L v1 site hth hb1.holds
      obtain ⟨hfile', hline'⟩ := hb1.below v.DelPtr (Nat.le_refl _)
      have hown : (⟨v1.DelFile v1.DelPtr, v1.DelLine v1.DelPtr⟩ : Site) = site := by
        rw [hb1.delPtr, hfile', hline']
        exact congrArg₂ Site.mk hfile hline
      refine ⟨v2, es1 ++ es2, (Wp.bind_of_ok hv1).trans hv2, hb1.trans hb2,
        hc1.1.append (hb1.running ▸ ha2), ?_, ?_⟩
      · rw [bodies_append, hbs1, hbs2, List.append_nil]
      · rw [operatorDeletes_append, hds1, hds2, hown, List.map_append]
        rfl
    obtain ⟨w1, es1, hw1, hb1, hc1, hbs1, hds1, hM1⟩ := delete_eq hth h
      (by omega) hf hbody
    obtain ⟨w2, es2, hw2, hb2, hc2, hbs2, hds2, hM2⟩ := ihr hb1.holds
      (hb1.delPtr.symm ▸ hdd.2)
    refine ⟨w2, es1 ++ es2, (Wp.bind_of_ok hw1).trans hw2, hb1.trans hb2,
      hc1.append (hb1.running ▸ hc2), ?_, ?_, fun _ => ?_⟩
    · rw [bodies_append, hbs1, hbs2]
      rfl
    · rw [operatorDeletes_append, hds1, hds2, ← List.map_append]
      rfl
    · cases rest with
      | none =>
        obtain ⟨-, rfl⟩ := EStateM.Result.ok.inj hw2
        exact hM1
      | object | null => exact hM2 nofun
  | null site rest ihr =>
    have hdd : w.DelPtr + 1 < DUMA_MAX_DEL_DEPTH ∧ w.DelPtr + rest.depth < DUMA_MAX_DEL_DEPTH := by
      rw [Deletes.depth] at hd
      omega
    have hbody : ∀ u : World, Holds thread (L + 1) u.sem → u.DelPtr = w.DelPtr + 1 →
        u.DelFile u.DelPtr = site.file → u.DelLine u.DelPtr = site.line → u.running = w.running →
        ∃ u' es, body thread site (pure ()) u = .ok () u' ∧ Balanced thread (L + 1) u u' es ∧
          Above thread w.running (L + 1) es ∧ bodies es = [site] ∧ operatorDeletes es = [] := by
      intro u hu hptr hfile hline hr
      rw [← hr]
      exact body_eq hu ⟨_, [], rfl, ⟨hu, rfl, rfl, fun _ _ => ⟨rfl, rfl⟩, (List.append_nil _).symm⟩,
        nofun, rfl, rfl⟩
    obtain ⟨w1, es1, hw1, hb1, hc1, hbs1, hds1, hM1⟩ := delete_eq hth h hdd.1 hf hbody
    obtain ⟨w2, es2, hw2, hb2, hc2, hbs2, hds2, hM2⟩ := ihr hb1.holds (hb1.delPtr.symm ▸ hdd.2)
    refine ⟨w2, es1 ++ es2, (Wp.bind_of_ok hw1).trans hw2, hb1.trans hb2,
      hc1.append (hb1.running ▸ hc2), ?_, ?_, fun _ => ?_⟩
    · rw [bodies_append, hbs1, hbs2]
      rfl
    · rw [operatorDeletes_append, hds1, hds2]
      rfl
    · cases rest with
      | none =>
        obtain ⟨-, rfl⟩ := EStateM.Result.ok.inj hw2
        exact hM1
      | object | null => exact hM2 nofun

/-- Delete expressions nested in any way run once each, under the lock, and pass their own places
on; the depth of the lock and the stack of places are then as before. -/
theorem deletes_balanced (hth : thread ≠ 0) (hr : Semaphore.Reach w.sem)
    (hidle : (w.sem.threads thread).pc = .idle)
    (hfree : w.sem.mutex = none ∨ w.sem.mutex = some thread)
    (hd : w.DelPtr + t.depth < DUMA_MAX_DEL_DEPTH) (hf : 2 ≤ fuel) :
    ∃ w' es, t.run thread fuel w = .ok () w' ∧ w'.log = w.log ++ es ∧ bodies es = t.sites ∧
      operatorDeletes es = t.objects.map (fun site => (site, site)) ∧
      (∀ e ∈ es, w.running < e.running →
        (w.sem.threads thread).depth < e.depth ∧ e.mutex = some thread) ∧
      (w'.sem.threads thread).depth = (w.sem.threads thread).depth ∧ w'.DelPtr = w.DelPtr ∧
      (t ≠ .none → w'.Magic = 0) := by
  obtain ⟨w', es, hrun, hb, hc, hbs, hds, hM⟩ := run_eq hth hf ⟨hr.inv, hidle, rfl, hfree⟩ hd
  refine ⟨w', es, hrun, hb.log, hbs, hds, fun e he hlt => ?_, hb.holds.depth, hb.delPtr, hM⟩
  have hdepth := hc.2 e he hlt
  exact ⟨hdepth, (hc.1 e he).2.2 (Nat.zero_lt_of_lt hdepth)⟩

def nested : Deletes :=
  .object ⟨"list.cpp", 12⟩ (.object ⟨"node.cpp", 30⟩ .none (.null ⟨"node.cpp", 31⟩ .none)) .none

def World.initial : World := ⟨State.initial, 0, 0, fun _ => "", fun _ => 0, 0, []⟩

theorem deletes_balanced_nested : ∃ w' es, nested.run 1 2 World.initial = .ok () w' ∧
    w'.log = [] ++ es ∧ bodies es = [⟨"list.cpp", 12⟩, ⟨"node.cpp", 30⟩, ⟨"node.cpp", 31⟩] ∧
    operatorDeletes es = [(⟨"node.cpp", 30⟩, ⟨"node.cpp", 30⟩), (⟨"list.cpp", 12⟩, ⟨"list.cpp", 12⟩)] ∧
    (∀ e ∈ es, 0 < e.running → 0 < e.depth ∧ e.mutex = some 1) ∧
    (w'.sem.threads 1).depth = 0 ∧ w'.DelPtr = 0 ∧ (nested ≠ .none → w'.Magic = 0) :=
  @deletes_balanced 1 2 World.initial nested (by decide) .initial rfl (.inl rfl) (by decide) (by decide)

end Duma.Delete

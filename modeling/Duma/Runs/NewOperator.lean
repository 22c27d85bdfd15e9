import Duma.Model.NewOperator
import Duma.Runs.Admitted

/-! # The operators `new` in runs

The loop of `duma_new_operator` does what a program does that calls the allocator once for each
attempt and makes the calls of the new handlers in between. So all that holds of runs holds of it.
-/

namespace Duma

variable {env : Env} {settings : Settings} {A : World → Call → Prop} {w w' : World} {s t : State}
  {handlers : ℕ → Option NewHandler} {size : ℕ} {allocator : Allocator} {dothrow : Bool}
  {site : Site} {calls : List Call} {fuel k n p : ℕ} {res : NewResult}

/-- Calls one after another, each admitted where it is made. -/
inductive World.Path (env : Env) (settings : Settings) (A : World → Call → Prop) :
    World → List Call → World → Prop
  | nil {w : World} : Path env settings A w [] w
  | cons {w w₁ w' : World} {c : Call} {calls : List Call} (hA : A w c)
      (h : w.Step env settings c w₁) (hr : Path env settings A w₁ calls w') :
      Path env settings A w (c :: calls) w'

/-- The attempts from the failure `k` on, `n` of them, with the calls of the handlers in between. -/
inductive World.News (env : Env) (settings : Settings) (A : World → Call → Prop)
    (handlers : ℕ → Option NewHandler) (new : Call) (dothrow : Bool) :
    ℕ → ℕ → World → NewResult → World → Prop
  | served {k p : ℕ} {w : World} {t : State} (hA : A w new) (hp : p ≠ 0)
      (h : new.exec env settings w.st = .ok p t) :
      News env settings A handlers new dothrow k 1 w (.pointer p) ⟨w.heapAfter env new p t, t⟩
  | unhandled {k : ℕ} {w : World} {t : State} (hA : A w new)
      (h : new.exec env settings w.st = .ok 0 t) (hk : handlers k = none) :
      News env settings A handlers new dothrow k 1 w (refusal dothrow) ⟨w.heap, t⟩
  | thrown {k : ℕ} {w w' : World} {t : State} {handler : NewHandler} (hA : A w new)
      (h : new.exec env settings w.st = .ok 0 t) (hk : handlers k = some handler)
      (ht : handler.throws = true)
      (hc : World.Path env settings A ⟨w.heap, t⟩ handler.calls w') :
      News env settings A handlers new dothrow k 1 w (refusal dothrow) w'
  | again {k n : ℕ} {w w₁ w' : World} {t : State} {handler : NewHandler} {res : NewResult}
      (hA : A w new) (h : new.exec env settings w.st = .ok 0 t) (hk : handlers k = some handler)
      (ht : handler.throws = false)
      (hc : World.Path env settings A ⟨w.heap, t⟩ handler.calls w₁)
      (hr : News env settings A handlers new dothrow (k + 1) n w₁ res w') :
      News env settings A handlers new dothrow k (n + 1) w res w'

section Runs

theorem Reach.path (hw : Reach env settings A w) (h : w.Path env settings A calls w') :
    Reach env settings A w' := by
  induction h with
  | nil => exact hw
  | cons hA h _ ih => exact ih (.step hw hA h)

theorem World.heapAfter_new_zero :
    w.heapAfter env (.new size allocator site) 0 t = w.heap := by
  simp [World.heapAfter, Call.request, Call.frees]

theorem World.step_failed (h : (Call.new size allocator site).exec env settings w.st = .ok 0 t) :
    w.Step env settings (.new size allocator site) ⟨w.heap, t⟩ := by
  have hs := @World.Step.intro env settings w _ 0 t h
  rwa [World.heapAfter_new_zero] at hs

theorem Reach.news (hw : Reach env settings A w)
    (h : w.News env settings A handlers (.new size allocator site) dothrow k n res w') :
    Reach env settings A w' := by
  induction h with
  | served hA _ h => exact .step hw hA (.intro h)
  | unhandled hA h _ => exact .step hw hA (World.step_failed h)
  | thrown hA h _ _ hc => exact (Reach.step hw hA (World.step_failed h)).path hc
  | again hA h _ _ hc _ ih => exact ih ((Reach.step hw hA (World.step_failed h)).path hc)

end Runs

section Loop

theorem initOnDemand_done (hT : Tidy env s) : initOnDemand env settings s = .ok () s := by
  obtain ⟨_, t, h, rfl⟩ := Wp.eq_ok (m := initOnDemand env settings) (s := s)
    (Q := fun _ t => t = s) (Wp.bind_iff.mpr (Wp.get_iff.mpr (Wp.ite (fun h0 => absurd h0 hT.pos)
      fun _ => rfl)))
  exact h

theorem exec_new (hT : Tidy env s) : (Call.new size allocator site).exec env settings s =
    allocate env (s.tls.newRequest size allocator site) s :=
  Wp.bind_of_ok (initOnDemand_done hT)

theorem execCalls_iff (hA : ∀ w₁ c, Reach env settings A w₁ → c ∈ calls → A w₁ c)
    (hw : Reach env settings A w) : execCalls env settings calls w.st = .ok () t ↔
      ∃ w', w.Path env settings A calls w' ∧ w'.st = t := by
  induction calls generalizing w with
  | nil =>
    constructor
    · intro h
      cases h
      exact ⟨w, .nil, rfl⟩
    · rintro ⟨w', h, rfl⟩
      cases h
      rfl
  | cons c rest ih =>
    have hin := hA w c hw List.mem_cons_self
    have hrest : ∀ w₁ c, Reach env settings A w₁ → c ∈ rest → A w₁ c := fun w₁ c hw₁ hc =>
      hA w₁ c hw₁ (List.mem_cons_of_mem _ hc)
    constructor
    · intro h
      cases hx : c.exec env settings w.st with
      | error e u =>
        rw [execCalls, Wp.bind_of_error hx] at h
        cases h
      | ok p u =>
        rw [execCalls, Wp.bind_of_ok hx] at h
        have hs : w.Step env settings c ⟨w.heapAfter env c p u, u⟩ := .intro hx
        obtain ⟨w', hp, ht⟩ := (ih hrest (.step hw hin hs)).mp h
        exact ⟨w', .cons hin hs hp, ht⟩
    · rintro ⟨w', h, rfl⟩
      cases h with
      | cons _ hs hp =>
        have hreach := Reach.step hw hin hs
        cases hs with
        | intro hx =>
          rw [execCalls, Wp.bind_of_ok hx]
          exact (ih hrest hreach).mpr ⟨w', hp, rfl⟩

theorem newLoop_of_ok (hT : Tidy env s)
    (h : (Call.new size allocator site).exec env settings s = .ok p t) :
    newLoop env settings handlers size allocator dothrow site (fuel + 1) k s =
      (if p ≠ 0 then pure (.pointer p)
      else match handlers k with
        | some handler => do
          execCalls env settings handler.calls
          if handler.throws then pure (refusal dothrow)
          else newLoop env settings handlers size allocator dothrow site fuel (k + 1)
        | none => pure (refusal dothrow) : M NewResult) t := by
  rw [exec_new hT] at h
  rw [newLoop]
  exact Wp.bind_of_ok h

theorem newLoop_of_error {e : Stop} (hT : Tidy env s)
    (h : (Call.new size allocator site).exec env settings s = .error e t) :
    newLoop env settings handlers size allocator dothrow site (fuel + 1) k s = .error e t := by
  rw [exec_new hT] at h
  rw [newLoop]
  exact Wp.bind_of_error (m := allocate env (s.tls.newRequest size allocator site)) h

variable (hpub : ∀ w c, A w c → c.Public)
  (hA : ∀ w c, Reach env settings A w → (c = .new size allocator site ∨
    ∃ k handler, handlers k = some handler ∧ c ∈ handler.calls) → A w c)
include hpub hA

theorem newLoop_iff (hw : Reach env settings A w) :
    newLoop env settings handlers size allocator dothrow site fuel k w.st = .ok res t ↔
      ∃ n w', n ≤ fuel ∧ w.News env settings A handlers (.new size allocator site) dothrow k n
        res w' ∧ w'.st = t := by
  induction fuel generalizing w k with
  | zero =>
    constructor
    · intro h
      cases h
    · rintro ⟨n, w', hn, h, -⟩
      cases h <;> omega
  | succ fuel ih =>
    have hT : Tidy env w.st := Reach.tidy (hw.mono _ _ hpub)
    have hnew := hA w _ hw (Or.inl rfl)
    have hcalls : ∀ {k : ℕ} {handler : NewHandler}, handlers k = some handler → ∀ w₁ c,
        Reach env settings A w₁ → c ∈ handler.calls → A w₁ c := fun hk w₁ c hw₁ hc =>
      hA w₁ c hw₁ (Or.inr ⟨_, _, hk, hc⟩)
    constructor
    · intro h
      cases hx : (Call.new size allocator site).exec env settings w.st with
      | error e u =>
        rw [newLoop_of_error hT hx] at h
        cases h
      | ok p u =>
        rw [newLoop_of_ok hT hx] at h
        by_cases hp : p = 0
        · subst hp
          have hfail : Reach env settings A ⟨w.heap, u⟩ := .step hw hnew (World.step_failed hx)
          rw [if_neg (not_not.mpr rfl)] at h
          cases hk : handlers k with
          | none =>
            rw [hk] at h
            cases h
            exact ⟨1, _, by omega, .unhandled hnew hx hk, rfl⟩
          | some handler =>
            rw [hk] at h
            dsimp only at h
            cases hc : execCalls env settings handler.calls u with
            | error e v =>
              rw [Wp.bind_of_error hc] at h
              cases h
            | ok _ v =>
              rw [Wp.bind_of_ok hc] at h
              obtain ⟨w₁, hpath, rfl⟩ := (execCalls_iff (hcalls hk) hfail).mp hc
              split at h
              · next ht =>
                cases h
                exact ⟨1, w₁, by omega, .thrown hnew hx hk ht hpath, rfl⟩
              · next ht =>
                obtain ⟨n, w', hn, hnews, ht'⟩ := (ih (hfail.path hpath)).mp h
                exact ⟨n + 1, w', by omega, .again hnew hx hk (by simpa using ht) hpath hnews, ht'⟩
        · rw [if_pos hp] at h
          cases h
          exact ⟨1, _, by omega, .served hnew hp hx, rfl⟩
    · rintro ⟨n, w', hn, h, rfl⟩
      cases h with
      | served _ hp hx =>
        rw [newLoop_of_ok hT hx, if_pos hp]
        rfl
      | unhandled _ hx hk =>
        rw [newLoop_of_ok hT hx, if_neg (not_not.mpr rfl), hk]
        rfl
      | thrown _ hx hk ht hc =>
        have hfail := Reach.step hw hnew (World.step_failed hx)
        rw [newLoop_of_ok hT hx, if_neg (not_not.mpr rfl), hk]
        dsimp only
        rw [Wp.bind_of_ok ((execCalls_iff (hcalls hk) hfail).mpr ⟨_, hc, rfl⟩), if_pos ht]
        rfl
      | again _ hx hk ht hc hr =>
        have hfail := Reach.step hw hnew (World.step_failed hx)
        rw [newLoop_of_ok hT hx, if_neg (not_not.mpr rfl), hk]
        dsimp only
        rw [Wp.bind_of_ok ((execCalls_iff (hcalls hk) hfail).mpr ⟨_, hc, rfl⟩),
          if_neg (by simp [ht])]
        exact (ih (hfail.path hc)).mpr ⟨_, _, by omega, hr, rfl⟩

omit hpub hA in
theorem World.News.returned (h : w.News env settings A handlers (.new size allocator site) dothrow
    k n res w') : ∀ j, j + 1 < n → ∃ handler, handlers (k + j) = some handler ∧
      handler.throws = false := by
  induction h with
  | served => intro j hj; omega
  | unhandled => intro j hj; omega
  | thrown => intro j hj; omega
  | again _ _ hk ht _ _ ih =>
    intro j hj
    cases j with
    | zero => exact ⟨_, hk, ht⟩
    | succ j =>
      obtain ⟨handler, h⟩ := ih j (by omega)
      exact ⟨handler, by rwa [Nat.add_right_comm] at h⟩

omit hpub hA in
theorem World.News.result (h : w.News env settings A handlers (.new size allocator site) dothrow
    k n res w') : res = refusal dothrow ∨ ∃ p, p ≠ 0 ∧ res = .pointer p ∧
      (p = w'.st.nullAddr env ∨
        ∃ b ∈ w'.heap, b.addr = p ∧ b.size = size ∧ b.allocator = allocator) := by
  induction h with
  | @served _ p w t _ hp h =>
    refine Or.inr ⟨p, hp, rfl, ?_⟩
    by_cases hnull : p = t.nullAddr env
    · exact Or.inl hnull
    · refine Or.inr ⟨t.newBlock (w.st.tls.newRequest size allocator site) p, ?_, rfl, rfl, rfl⟩
      simp [World.heapAfter, Call.request, Call.frees, hp, hnull]
  | unhandled => exact Or.inl rfl
  | thrown => exact Or.inl rfl
  | again _ _ _ _ _ _ ih => exact ih

/-- `duma_new_operator` returns exactly what a run does that calls the allocator once for each of
its attempts, each of them but the last failing, and makes the calls of the new handlers in between.
Where it may throw it never returns a null pointer, where it may not it never throws, and a pointer
that it returns is that of a block of the program or, for no bytes, of the null block. -/
theorem new_operator_exact (hw : Reach env settings A w) :
    (dumaNewOperator env settings handlers size allocator dothrow site fuel w.st = .ok res t ↔
      ∃ n w', n ≤ fuel ∧ w.News env settings A handlers (.new size allocator site) dothrow 0 n
        res w' ∧ w'.st = t) ∧
    ∀ (n : ℕ) (res : NewResult) (w' : World),
      w.News env settings A handlers (.new size allocator site) dothrow 0 n res w' →
      Reach env settings A w' ∧
      (∀ j, j + 1 < n → ∃ handler, handlers j = some handler ∧ handler.throws = false) ∧
      (dothrow = true → res ≠ .pointer 0) ∧ (dothrow = false → res ≠ .badAlloc) ∧
      ∀ p, p ≠ 0 → res = .pointer p → p = w'.st.nullAddr env ∨
        ∃ b ∈ w'.heap, b.addr = p ∧ b.size = size ∧ b.allocator = allocator := by
  constructor
  · rw [← newLoop_iff hpub hA hw]
    have hT : Tidy env w.st := Reach.tidy (hw.mono _ _ hpub)
    have hinit : initOnDemand env settings w.st = .ok () w.st := initOnDemand_done hT
    rw [dumaNewOperator, Wp.bind_of_ok hinit]
  · intro n res w' h
    have hh := h.returned
    simp only [Nat.zero_add] at hh
    refine ⟨hw.news h, hh, ?_, ?_, ?_⟩
    all_goals rcases h.result with rfl | ⟨q, hq, rfl, hb⟩
    · rintro rfl h
      cases h
    · rintro - h
      exact hq (NewResult.pointer.inj h)
    · rintro rfl h
      cases h
    · rintro - h
      cases h
    · intro p hp h
      cases dothrow
      · exact absurd (NewResult.pointer.inj h).symm hp
      · cases h
    · intro p hp h
      obtain rfl := NewResult.pointer.inj h
      exact hb

omit hpub hA in
/-- After the start `mmap` fails. A new handler that only checks the blocks is called once; then none
is installed. -/
theorem new_operator_exact_sample : ∃ (handlers : ℕ → Option NewHandler) (w : World) (t : State),
    handlers 0 ≠ none ∧
    dumaNewOperator (Env.refusing 2) (Settings.sample (-1) (-1)) handlers 2000000 .newElem true
      Site.unknown 3 w.st = .ok .badAlloc t ∧
    ∃ n w', n ≤ 3 ∧ w.News (Env.refusing 2) (Settings.sample (-1) (-1)) (fun _ c => c.Public) handlers
      (.new 2000000 .newElem Site.unknown) true 0 n .badAlloc w' ∧ w'.st = t := by
  obtain ⟨w, hw, hp⟩ := exists_refusing 2 (Settings.sample (-1) (-1)) [] (fun w =>
    match dumaNewOperator (Env.refusing 2) (Settings.sample (-1) (-1)) (fun k =>
        if k = 0 then some ⟨[.checkAll], false⟩ else none) 2000000 .newElem true Site.unknown 3
        w.st with
    | .ok .badAlloc _ => true
    | _ => false) (by decide +kernel)
  split at hp
  · next t he =>
    refine ⟨_, w, t, by decide, he, ((new_operator_exact (fun _ _ => id) ?_
      (hw.mono _ _ fun _ _ hc => hc.public)).1.mp he)⟩
    rintro w c - (rfl | ⟨k, handler, hk, hc⟩)
    · exact show Allocator.newElem.type ≠ .internal by decide
    · split at hk
      · cases hk
        rw [List.mem_singleton.mp hc]
        trivial
      · cases hk
  · cases hp

end Loop

end Duma

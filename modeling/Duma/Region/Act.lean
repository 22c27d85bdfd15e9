import Duma.Region.Tidy

/-! # Runs of the allocator

What the allocator does between two calls of the program, as a sequence of steps: those that no
block notices, handing out and releasing slots, writes, and changes of the settings.
-/

namespace Duma

variable {env : Env} {ok : ℕ → Prop} {s s' s'' t : State} {i j n al x : ℕ} {sl new : Slot}
  {r : Request} {l : Layout} {site : Site} {works : Config → Prop}
  {serves : ℕ → ℕ → Request → Prop}

/-- The sizes that an allocation asks for: only its own, if it is a proper request. -/
def Asked (env : Env) (n al : ℕ) (r : Request) (m : ℕ) : Prop := m = n ∨ ¬ Served env n al r

theorem served_of_asked (h : ∀ m, Asked env n al r m → WholePages env m) :
    Served env n al r := by
  by_contra hn
  exact absurd (h 0 (Or.inr hn)).1 (lt_irrefl 0)

theorem Served.whole (h : Served env n al r) (m : ℕ) (hm : Asked env n al r m) :
    WholePages env m := by
  obtain rfl := hm.resolve_right (not_not.mpr h)
  exact h.pos_dvd

/-- A step of a run; `works` says under which settings the allocator works and `serves` which
requests it serves, with the size and the alignment computed for them. -/
inductive Act (env : Env) (works : Config → Prop) (serves : ℕ → ℕ → Request → Prop) (s : State) :
    State → Prop
  | silent {t : State} (hw : works s.cfg) (h : Silent env (fun _ => False) s t) :
      Act env works serves s t
  | serve {t u : State} {n al i : ℕ} {r : Request} {l : Layout} (hw : works s.cfg)
      (hr : serves n al r) (hu : r.allocator.type ≠ .internal)
      (h : Inners env (Asked env n al r) s u) (ht : Take env n al r i l u t) :
      Act env works serves s t
  | release {t : State} {i : ℕ} {sl : Slot} {site : Site} (hw : works s.cfg)
      (hi : s.slots[i]? = some sl) (h0 : sl.userAddress ≠ 0) (hp : ¬ sl.IsProtected)
      (hu : sl.allocator.type ≠ .internal) (hr : Release env i sl site s t) :
      Act env works serves s t
  | store (lo hi : ℕ) (f : ℕ → UInt8) : Act env works serves s (s.store lo hi f)
  | set (cfg : Config) (tls : Tls) : Act env works serves s { s with cfg, tls }
  | initDone : Act env works serves s { s with initDone := true }

abbrev Acts (env : Env) (works : Config → Prop) (serves : ℕ → ℕ → Request → Prop) :
    State → State → Prop :=
  Relation.ReflTransGen (Act env works serves)


theorem Act.tidy (hT : Tidy env s) (h : Act env works serves s s') : Tidy env s' := by
  cases h with
  | silent _ h => exact hT.silent h
  | serve _ _ _ h ht => exact (hT.inners h).take ht
  | release _ _ _ _ _ hr => exact hT.release hr
  | store => exact hT.congr rfl rfl rfl
  | set => exact hT.congr rfl rfl rfl
  | initDone => exact hT.congr rfl rfl rfl

theorem Acts.tidy (hT : Tidy env s) (h : Acts env works serves s s') : Tidy env s' := by
  induction h with
  | refl => exact hT
  | tail _ ha ih => exact ha.tidy ih

section Core

theorem Slot.WellFormed.isUser (h : sl.WellFormed env) (h0 : sl.userAddress ≠ 0)
    (hp : ¬ sl.IsProtected) (hu : sl.allocator.type ≠ .internal) : sl.IsUser := by
  refine ⟨?_, hu⟩
  cases h with
  | empty _ _ h => exact absurd h h0
  | free _ _ _ ha => exact absurd (by rw [ha]; rfl) hu
  | inUse h => exact h
  | guarded h => exact absurd h hp

theorem Slot.IsUser.not_isList (h : sl.IsUser) : ¬ sl.IsList s := fun hL =>
  h.2 (by rw [hL.allocator]; rfl)

/-- The invariants between the steps of a run. -/
structure Safe (env : Env) (s : State) : Prop where
  core : Core env s
  live : Live env s
  tidy : Tidy env s

theorem Release.live (hc : Core env s) (hi : s.slots[i]? = some sl) (hs : sl.state ≠ .empty)
    (hr : Release env i sl site s s') (h : Live env s) : Live env s' := by
  have hloc := hr.local hc hi hs
  intro k sl' x hk hu hx
  by_cases hki : k = i
  · subst hki
    obtain ⟨new, hn, hst⟩ := hr.slot hi
    obtain rfl := Option.some.inj (hk.symm.trans hn)
    rcases hst with hst | hst <;> rw [hu.1] at hst <;> cases hst
  · have hk' := hloc.back hki hk (by rw [hu.1]; nofun)
    have hwf := hc.slot hk'
    have hown := (hwf.placed hu.1).owns_of_live (hwf.region (by rw [hu.1]; nofun)) hx
    rw [hloc.page fun hR => hki (hloc.inside hR (hc.owns hk' hown))]
    exact h hk' hu hx

theorem Taken.liveAll (hT : Taken env n al r i l s s' sl new) (hc : Core env s)
    (h : Live env s) : Live env s' := by
  intro k sl' x hk hu hx
  rw [hT.slot] at hk
  split at hk
  · cases hk
    exact hT.live hx
  · next hik =>
    have hwf := hc.slot hk
    have hown := (hwf.placed hu.1).owns_of_live (hwf.region (by rw [hu.1]; nofun)) hx
    rcases hT.outside (fun hn => hik (hc.eq_of_owns hT.old hk (hT.owns_iff.mp hn) hown)) with he | he
    exacts [he.trans (h hk hu hx), he]

/-- The slot and the region that a step of a run serves a request with. -/
theorem Safe.serve {u : State} (h : Safe env s) (hS : Served env n al r)
    (hu : r.allocator.type ≠ .internal) (hi : Inners env (Asked env n al r) s u)
    (ht : Take env n al r i l u s') : Kept env s u ∧
      (∃ sl new, Taken env n al r i l u s' sl new) ∧ Safe env s' := by
  have hk := Inners.kept hS.whole h.core hi
  obtain ⟨sl, new, hT⟩ := ht.taken hk.core hS
  exact ⟨hk, ⟨sl, new, hT⟩, ht.core hk.core hS fun h => absurd h hu,
    hT.liveAll hk.core (hk.keeps.live h.core h.live), (h.tidy.inners hi).take ht⟩

variable (hS : ∀ n al r, serves n al r → Served env n al r)
include hS

theorem Act.safe (h : Safe env s) (ha : Act env works serves s s') : Safe env s' := by
  have hT := ha.tidy h.tidy
  cases ha with
  | silent _ ha =>
    have hc := ha.calm (fun _ => False.elim) h.core
    exact ⟨hc.core, hc.keeps.live h.core h.live, hT⟩
  | serve _ hr hu hi ht => exact (h.serve (hS _ _ _ hr) hu hi ht).2.2
  | release _ hi h0 hp hu hr =>
    have hsl := (h.core.slot hi).isUser h0 hp hu
    exact ⟨hr.core h.core hi hsl.1 hsl.not_isList,
      hr.live h.core hi (by rw [hsl.1]; nofun) h.live, hT⟩
  | store => exact ⟨h.core.of_mem, h.live, hT⟩
  | set => exact ⟨h.core.congr rfl rfl rfl rfl rfl rfl, h.live, hT⟩
  | initDone => exact ⟨h.core.congr rfl rfl rfl rfl rfl rfl, h.live, hT⟩

theorem Acts.safe (h : Safe env s) (ha : Acts env works serves s s') : Safe env s' := by
  induction ha with
  | refl => exact h
  | tail _ ha ih => exact ha.safe hS ih

end Core

end Duma

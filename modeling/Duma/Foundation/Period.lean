import Mathlib.Data.Int.Notation
import Mathlib.Tactic.Common

/-! # Periodic counters

A counter is advanced at each visit and goes back to 0 when it reaches its period; what happens
between visits leaves it alone. Among any `n` consecutive visits, `n` being the period, one is
made when the counter is about to reach it.
-/

variable {σ : Type} {quiet visit : σ → σ → Prop} {s t u v : σ} {l l₁ l₂ : List σ}

/-- A run from `s` to `t` with visits in the states `l`. -/
inductive Visits (quiet visit : σ → σ → Prop) : σ → List σ → σ → Prop
  | quiet {s t : σ} (h : quiet s t) : Visits quiet visit s [] t
  | visit {s t u v : σ} {l : List σ} (h : quiet s u) (hv : visit u v)
      (ht : Visits quiet visit v l t) : Visits quiet visit s (u :: l) t

namespace Visits

section Append

variable (trans : ∀ ⦃s t u⦄, quiet s t → quiet t u → quiet s u)
include trans

theorem quiet_left (h : quiet s t) (ht : Visits quiet visit t l u) : Visits quiet visit s l u := by
  cases ht with
  | quiet h' => exact .quiet (trans h h')
  | visit h' hv ht => exact .visit (trans h h') hv ht

theorem append (h : Visits quiet visit s l₁ t) (ht : Visits quiet visit t l₂ u) :
    Visits quiet visit s (l₁ ++ l₂) u := by
  induction h with
  | quiet h => exact ht.quiet_left trans h
  | visit h hv _ ih => exact .visit h hv (ih ht)

end Append

theorem mem (h : Visits quiet visit s l t) (hu : u ∈ l) : ∃ v, visit u v := by
  induction h with
  | quiet => exact absurd hu List.not_mem_nil
  | visit _ hv _ ih =>
    rcases List.mem_cons.mp hu with rfl | hu
    exacts [⟨_, hv⟩, ih hu]

theorem split (refl : ∀ s, quiet s s) (h : Visits quiet visit s (l₁ ++ l₂) u) :
    ∃ t, Visits quiet visit s l₁ t ∧ Visits quiet visit t l₂ u := by
  induction l₁ generalizing s with
  | nil => exact ⟨s, .quiet (refl s), h⟩
  | cons a l₁ ih =>
    cases h with
    | visit h hv ht =>
      obtain ⟨t, h₁, h₂⟩ := ih ht
      exact ⟨t, .visit h hv h₁, h₂⟩

end Visits

/-- In states with the property `I`, `count` is advanced by visits alone, with period `n`. -/
structure Clock (quiet visit : σ → σ → Prop) (I : σ → Prop) (count : σ → ℤ) (n : ℤ) : Prop where
  quiet : ∀ ⦃s t⦄, quiet s t → I s → I t ∧ count t = count s
  visit : ∀ ⦃s t⦄, visit s t → I s → I t ∧ count t = if count s + 1 = n then 0 else count s + 1

namespace Clock

variable {I : σ → Prop} {count : σ → ℤ} {n : ℤ}

def InRange (I : σ → Prop) (count : σ → ℤ) (n : ℤ) (s : σ) : Prop := I s ∧ 0 ≤ count s ∧ count s < n

variable (h : Clock quiet visit I count n)
include h

theorem inRange_quiet (hq : quiet s t) (hs : InRange I count n s) : InRange I count n t := by
  obtain ⟨hI, hc⟩ := h.quiet hq hs.1
  exact ⟨hI, by rw [hc]; exact hs.2.1, by rw [hc]; exact hs.2.2⟩

theorem inRange_visit (hv : visit s t) (hs : InRange I count n s) : InRange I count n t := by
  obtain ⟨hI, h0, hlt⟩ := hs
  obtain ⟨hI', hc⟩ := h.visit hv hI
  split at hc
  · exact ⟨hI', by omega, by omega⟩
  · exact ⟨hI', by omega, by omega⟩

theorem inRange (hv : Visits quiet visit s l t) (hs : InRange I count n s) :
    InRange I count n t ∧ ∀ u ∈ l, InRange I count n u := by
  induction hv with
  | quiet hq => exact ⟨h.inRange_quiet hq hs, fun _ hu => absurd hu List.not_mem_nil⟩
  | visit hq hv _ ih =>
    have hu := h.inRange_quiet hq hs
    obtain ⟨ht, hl⟩ := ih (h.inRange_visit hv hu)
    refine ⟨ht, ?_⟩
    intro a ha
    rcases List.mem_cons.mp ha with rfl | ha
    exacts [hu, hl a ha]

theorem count_eq (hv : Visits quiet visit s l t) (hI : I s) (hno : ∀ u ∈ l, count u + 1 ≠ n) :
    count t = count s + l.length := by
  induction hv with
  | quiet hq =>
    rw [(h.quiet hq hI).2]
    simp
  | visit hq hv _ ih =>
    obtain ⟨hIu, hu⟩ := h.quiet hq hI
    obtain ⟨hIv, hv⟩ := h.visit hv hIu
    rw [if_neg (hno _ List.mem_cons_self)] at hv
    have := ih hIv fun a ha => hno a (List.mem_cons_of_mem _ ha)
    rw [this, hv, hu, List.length_cons]
    omega

theorem length_lt (hv : Visits quiet visit s l t) (hs : InRange I count n s)
    (hno : ∀ u ∈ l, count u + 1 ≠ n) : count s + l.length < n := by
  rw [← h.count_eq hv hs.1 hno]
  exact (h.inRange hv hs).1.2.2

/-- Among as many consecutive visits as the period is long, the counter reaches it at one. -/
theorem window (refl : ∀ s, quiet s s) {pre mid post : List σ}
    (hv : Visits quiet visit s (pre ++ mid ++ post) t) (hs : InRange I count n s)
    (hn : n ≤ mid.length) : ∃ u ∈ mid, count u + 1 = n := by
  by_contra hno
  push Not at hno
  obtain ⟨b, hb, -⟩ := hv.split refl
  obtain ⟨a, ha, hab⟩ := hb.split refl
  have hra := (h.inRange ha hs).1
  have := h.length_lt hab hra hno
  have := hra.2.1
  omega

end Clock

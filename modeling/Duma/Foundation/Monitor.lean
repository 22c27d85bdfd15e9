import Mathlib.Computability.Language

/-! # Monitors of words

A monitor reads a word letter by letter and may refuse one. `Takes next P l Q` says that it reads
every word of the language `l` from every state in `P` and ends in `Q`.
-/

namespace Monitor

open Computability

variable {σ α : Type} (next : σ → α → Option σ)

def run (p : σ) (w : List α) : Option σ := w.foldlM next p

variable {next} {p q : σ} {a : α} {v w : List α}

@[simp] theorem run_nil : run next p [] = some p := rfl

theorem run_cons : run next p (a :: w) = (next p a).bind fun q => run next q w := rfl

theorem run_append : run next p (v ++ w) = (run next p v).bind fun q => run next q w := by
  simp only [run, List.foldlM_append]
  rfl

theorem run_concat (h : run next p v = some q) : run next p (v ++ [a]) = next q a := by
  rw [run_append, h, Option.bind_some, run_cons]
  cases next q a <;> rfl

variable (next) in
def Takes (P : Set σ) (l : Language α) (Q : Set σ) : Prop :=
  ∀ p ∈ P, ∀ w ∈ l, ∃ q ∈ Q, run next p w = some q

namespace Takes

variable {P P' Q Q' R : Set σ} {l m : Language α}

theorem mono (h : Takes next P l Q) (hP : P' ⊆ P) (hQ : Q ⊆ Q') : Takes next P' l Q' := by
  intro p hp w hw
  obtain ⟨q, hq, hr⟩ := h p (hP hp) w hw
  exact ⟨q, hQ hq, hr⟩

theorem one (h : P ⊆ Q) : Takes next P 1 Q := by
  intro p hp w hw
  obtain rfl := (Language.mem_one w).mp hw
  exact ⟨p, h hp, rfl⟩

theorem add (hl : Takes next P l Q) (hm : Takes next P m Q) : Takes next P (l + m) Q := by
  intro p hp w hw
  rcases (Language.mem_add l m w).mp hw with hw | hw
  exacts [hl p hp w hw, hm p hp w hw]

theorem mul (hl : Takes next P l Q) (hm : Takes next Q m R) : Takes next P (l * m) R := by
  intro p hp w hw
  obtain ⟨u, hu, v, hv, rfl⟩ := Language.mem_mul.mp hw
  obtain ⟨q, hq, hr⟩ := hl p hp u hu
  obtain ⟨r, hr', hs⟩ := hm q hq v hv
  exact ⟨r, hr', by rw [run_append, hr, Option.bind_some, hs]⟩

theorem kstar (h : Takes next P l P) : Takes next P l∗ P := by
  intro p hp w hw
  obtain ⟨L, rfl, hL⟩ := Language.mem_kstar.mp hw
  induction L generalizing p with
  | nil => exact ⟨p, hp, rfl⟩
  | cons v L ih =>
    obtain ⟨q, hq, hr⟩ := h p hp v (hL v List.mem_cons_self)
    have hrest : ∀ y ∈ L, y ∈ l := fun y hy => hL y (List.mem_cons_of_mem v hy)
    obtain ⟨r, hr', hs⟩ := ih q hq hrest (Language.join_mem_kstar hrest)
    exact ⟨r, hr', by rw [List.flatten_cons, run_append, hr, Option.bind_some, hs]⟩

end Takes

end Monitor

import Duma.Foundation.Wp

/-! # Programs that leave part of the state alone

A view is a function of the state. A program leaves a view alone when it has the same value in the
state where the program ends, whether it returns there or stops.
-/

variable {ε σ α β γ : Type}

/-- Wherever `m` ends, the view `f` of the state is what it was. -/
def Leaves (f : σ → γ) (m : EStateM ε σ α) : Prop :=
  ∀ s, Wp m (fun _ t => f t = f s) (fun _ t => f t = f s) s

variable {f : σ → γ} {m m' : EStateM ε σ α} {k : α → EStateM ε σ β} {s t : σ} {a : α} {e : ε}

theorem leaves_pure : Leaves f (pure a : EStateM ε σ α) := fun _ => rfl

theorem leaves_throw : Leaves f (throw e : EStateM ε σ α) := fun _ => rfl

theorem leaves_get : Leaves f (get : EStateM ε σ σ) := fun _ => rfl

theorem leaves_modify {g : σ → σ} (h : ∀ s, f (g s) = f s) :
    Leaves f (modify g : EStateM ε σ PUnit) := fun s => h s

namespace Leaves

theorem bind (hm : Leaves f m) (hk : ∀ a, Leaves f (k a)) : Leaves f (m >>= k) := by
  intro s
  refine Wp.bind_iff.mpr (Wp.mono (hm s) ?_ fun _ _ h => h)
  intro a t ht
  exact Wp.mono (hk a t) (fun _ _ h => h.trans ht) fun _ _ h => h.trans ht

theorem get_bind {k : σ → EStateM ε σ β} (hk : ∀ s, Leaves f (k s)) : Leaves f (get >>= k) :=
  leaves_get.bind hk

theorem ite {c : Prop} [Decidable c] (ht : c → Leaves f m) (hf : ¬ c → Leaves f m') :
    Leaves f (if c then m else m') := by
  split
  · next h => exact ht h
  · next h => exact hf h

theorem returns (h : Leaves f m) (hr : m s = .ok a t) : f t = f s := (h s).returns hr

/-- What is known of the view before a program is known of it where the program ends. -/
theorem wp (h : Leaves f m) {v : γ} (hs : f s = v) :
    Wp m (fun _ t => f t = v) (fun _ t => f t = v) s :=
  Wp.mono (h s) (fun _ _ h => h.trans hs) fun _ _ h => h.trans hs

end Leaves

import Mathlib.Init

/-! # Weakest preconditions of stateful programs that can stop

A program either returns a value in a new state or stops with an error in the state where it
stopped. `Wp m Q E s` says that running `m` from `s` ends in `Q` when it returns and in `E`
when it stops; both postconditions see the final state.
-/

variable {ε σ α β : Type}

def Wp (m : EStateM ε σ α) (Q : α → σ → Prop) (E : ε → σ → Prop) (s : σ) : Prop :=
  match m s with
  | .ok a s' => Q a s'
  | .error e s' => E e s'

namespace Wp

variable {m : EStateM ε σ α} {f : α → EStateM ε σ β} {s s' : σ} {a : α} {e : ε}
variable {Q R : α → σ → Prop} {E F : ε → σ → Prop}

theorem returns (h : Wp m Q E s) (hr : m s = .ok a s') : Q a s' := by
  unfold Wp at h; rwa [hr] at h

theorem stops (h : Wp m Q E s) (hr : m s = .error e s') : E e s' := by
  unfold Wp at h; rwa [hr] at h

theorem intro (hok : ∀ a s', m s = .ok a s' → Q a s') (herr : ∀ e s', m s = .error e s' → E e s') :
    Wp m Q E s := by
  unfold Wp
  cases h : m s with
  | ok a s' => exact hok a s' h
  | error e s' => exact herr e s' h

theorem mono (h : Wp m Q E s) (hQ : ∀ a s', Q a s' → R a s') (hE : ∀ e s', E e s' → F e s') :
    Wp m R F s :=
  intro (fun _ _ hr => hQ _ _ (h.returns hr)) fun _ _ hr => hE _ _ (h.stops hr)

theorem of_ok (hr : m s = .ok a s') (h : Q a s') : Wp m Q E s := by
  unfold Wp; rwa [hr]

theorem of_eq {m' : EStateM ε σ α} {t : σ} (hr : m s = m' t) (h : Wp m' Q E t) : Wp m Q E s := by
  unfold Wp at h ⊢; rwa [hr]

theorem self : Wp m (fun a t => m s = .ok a t) (fun e t => m s = .error e t) s :=
  intro (fun _ _ hr => hr) fun _ _ hr => hr

/-- The run itself may be kept for later. -/
theorem keep (h : Wp m Q E s) : Wp m (fun a s' => m s = .ok a s' ∧ Q a s') E s :=
  intro (fun _ _ hr => ⟨hr, h.returns hr⟩) fun _ _ hr => h.stops hr

theorem post (h : Wp m Q E s) (hQ : ∀ a s', Q a s' → R a s') : Wp m R E s :=
  h.mono hQ fun _ _ => id

theorem and (h : Wp m Q E s) (h' : Wp m R F s) :
    Wp m (fun a s' => Q a s' ∧ R a s') (fun e s' => E e s' ∧ F e s') s :=
  intro (fun _ _ hr => ⟨h.returns hr, h'.returns hr⟩) fun _ _ hr => ⟨h.stops hr, h'.stops hr⟩

@[simp] theorem pure_iff : Wp (pure a : EStateM ε σ α) Q E s ↔ Q a s := Iff.rfl

@[simp] theorem throw_iff : Wp (throw e : EStateM ε σ α) Q E s ↔ E e s := Iff.rfl

@[simp] theorem get_iff {Q : σ → σ → Prop} : Wp (get : EStateM ε σ σ) Q E s ↔ Q s s := Iff.rfl

@[simp] theorem modify_iff {g : σ → σ} {Q : PUnit → σ → Prop} :
    Wp (modify g : EStateM ε σ PUnit) Q E s ↔ Q ⟨⟩ (g s) := Iff.rfl

@[simp] theorem bind_iff {Q : β → σ → Prop} :
    Wp (m >>= f) Q E s ↔ Wp m (fun a s' => Wp (f a) Q E s') E s := by
  change (match EStateM.bind m f s with | .ok a s' => Q a s' | .error e s' => E e s') ↔ _
  unfold Wp EStateM.bind
  cases m s <;> rfl

theorem seq {Q : β → σ → Prop} {R : α → σ → Prop} (hm : Wp m R E s)
    (hf : ∀ a s', R a s' → Wp (f a) Q E s') : Wp (m >>= f) Q E s :=
  bind_iff.mpr (hm.post hf)

theorem ite {c : Prop} [Decidable c] {m' : EStateM ε σ α} (ht : c → Wp m Q E s)
    (hf : ¬ c → Wp m' Q E s) : Wp (if c then m else m') Q E s := by
  split
  · next h => exact ht h
  · next h => exact hf h

theorem bind_of_ok (h : m s = .ok a s') : (m >>= f) s = f a s' := by
  change EStateM.bind m f s = _
  unfold EStateM.bind
  rw [h]

theorem bind_of_error (h : m s = .error e s') : (m >>= f) s = .error e s' := by
  change EStateM.bind m f s = _
  unfold EStateM.bind
  rw [h]

theorem eq_ok (h : Wp m Q (fun _ _ => False) s) : ∃ a s', m s = .ok a s' ∧ Q a s' := by
  cases hr : m s with
  | ok a s' => exact ⟨a, s', rfl, h.returns hr⟩
  | error e s' => exact (h.stops hr).elim

end Wp

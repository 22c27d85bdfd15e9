import Mathlib.Data.Set.Basic

/-! # Partitions into owned parts

`own i x` says that owner `i` holds `x`. A partition of `S` gives every element of `S` exactly
one owner and owns nothing outside `S`. The rules say how parts may shrink, appear and be cut
in two.
-/

variable {ι α : Type*}

structure Ownership (own : ι → α → Prop) (S : Set α) : Prop where
  unique : ∀ ⦃i j x⦄, own i x → own j x → i = j
  cover : ∀ x, x ∈ S ↔ ∃ i, own i x

namespace Ownership

variable {own own' : ι → α → Prop} {S S' : Set α} {i j : ι}

theorem congr (h : Ownership own S) (ho : ∀ k x, own' k x ↔ own k x) (hS : ∀ x, x ∈ S' ↔ x ∈ S) :
    Ownership own' S' where
  unique _ _ _ hi hj := h.unique ((ho _ _).mp hi) ((ho _ _).mp hj)
  cover x := by simp only [hS, h.cover, ho]

theorem shrink (h : Ownership own S) (ho : ∀ k x, k ≠ i → (own' k x ↔ own k x))
    (hi : ∀ x, own' i x → own i x) (hS : ∀ x, x ∈ S' ↔ x ∈ S ∧ (own i x → own' i x)) :
    Ownership own' S' := by
  have hle : ∀ k x, own' k x → own k x := fun k x hk => by
    rcases eq_or_ne k i with rfl | hne
    · exact hi x hk
    · exact (ho k x hne).mp hk
  refine ⟨fun k l x hk hl => h.unique (hle k x hk) (hle l x hl), fun x => ?_⟩
  rw [hS, h.cover]
  constructor
  · rintro ⟨⟨k, hk⟩, hx⟩
    rcases eq_or_ne k i with rfl | hne
    · exact ⟨k, hx hk⟩
    · exact ⟨k, (ho k x hne).mpr hk⟩
  · rintro ⟨k, hk⟩
    exact ⟨⟨k, hle k x hk⟩, fun hix => by rwa [h.unique hix (hle k x hk)]⟩

theorem extend (h : Ownership own S) (ho : ∀ k x, k ≠ i → (own' k x ↔ own k x))
    (h0 : ∀ x, ¬ own i x) (hfresh : ∀ x, own' i x → x ∉ S)
    (hS : ∀ x, x ∈ S' ↔ x ∈ S ∨ own' i x) : Ownership own' S' := by
  have hne : ∀ k x, own k x → k ≠ i := fun k x hk hki => h0 x (hki ▸ hk)
  have hold : ∀ k x, k ≠ i → own' k x → x ∈ S := fun k x hki hk =>
    (h.cover x).mpr ⟨k, (ho k x hki).mp hk⟩
  refine ⟨fun k l x hk hl => ?_, fun x => ?_⟩
  · rcases eq_or_ne k i with rfl | hki <;> rcases eq_or_ne l k with rfl | hlk
    · rfl
    · exact absurd (hold l x hlk hl) (hfresh x hk)
    · rfl
    · rcases eq_or_ne l i with rfl | hli
      · exact absurd (hold k x hki hk) (hfresh x hl)
      · exact h.unique ((ho k x hki).mp hk) ((ho l x hli).mp hl)
  · rw [hS, h.cover]
    constructor
    · rintro (⟨k, hk⟩ | hx)
      · exact ⟨k, (ho k x (hne k x hk)).mpr hk⟩
      · exact ⟨i, hx⟩
    · rintro ⟨k, hk⟩
      rcases eq_or_ne k i with rfl | hki
      · exact Or.inr hk
      · exact Or.inl ⟨k, (ho k x hki).mp hk⟩

theorem cut (h : Ownership own S) (ho : ∀ k x, k ≠ i → k ≠ j → (own' k x ↔ own k x))
    (hj : ∀ x, ¬ own j x) (hdisj : ∀ x, own' i x → ¬ own' j x)
    (hij : ∀ x, own i x ↔ own' i x ∨ own' j x) : Ownership own' S := by
  have hback : ∀ k x, own' k x → ∃ l, own l x ∧ (k = l ∨ (l = i ∧ k = j)) := fun k x hk => by
    rcases eq_or_ne k i with rfl | hki
    · exact ⟨k, (hij x).mpr (Or.inl hk), Or.inl rfl⟩
    rcases eq_or_ne k j with rfl | hkj
    · exact ⟨i, (hij x).mpr (Or.inr hk), Or.inr ⟨rfl, rfl⟩⟩
    · exact ⟨k, (ho k x hki hkj).mp hk, Or.inl rfl⟩
  refine ⟨fun k l x hk hl => ?_, fun x => ?_⟩
  · obtain ⟨k', hk', hk''⟩ := hback k x hk
    obtain ⟨l', hl', hl''⟩ := hback l x hl
    obtain rfl := h.unique hk' hl'
    rcases hk'' with rfl | ⟨rfl, rfl⟩ <;> rcases hl'' with rfl | ⟨hi, rfl⟩
    · rfl
    · exact absurd hl (hdisj x (hi ▸ hk))
    · exact absurd hk (hdisj x hl)
    · rfl
  · rw [h.cover]
    constructor
    · rintro ⟨k, hk⟩
      rcases eq_or_ne k i with rfl | hki
      · rcases (hij x).mp hk with hx | hx
        exacts [⟨_, hx⟩, ⟨_, hx⟩]
      · exact ⟨k, (ho k x hki fun hkj => hj x (hkj ▸ hk)).mpr hk⟩
    · rintro ⟨k, hk⟩
      obtain ⟨l, hl, -⟩ := hback k x hk
      exact ⟨l, hl⟩

end Ownership

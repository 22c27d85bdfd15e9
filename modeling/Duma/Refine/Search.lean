import Duma.Model.Allocate
import Mathlib.Data.List.Basic

/-! # The search through the slots

The search ends at a free slot of exactly the size needed, or it has seen the whole list; then it
has the smallest free slot that is large enough and the first two empty ones.
-/

namespace Duma

variable {n i : ℕ} {slots pre rest : List Slot} {sl : Slot} {f : Found}

/-- The slots found are in the list and in the states that the search looks for. -/
structure Found.Valid (n : ℕ) (slots : List Slot) (f : Found) : Prop where
  full : ∀ ⦃i sl⦄, f.fullSlot = some (i, sl) →
    slots[i]? = some sl ∧ sl.state = .free ∧ n ≤ sl.internalSize
  empty0 : ∀ ⦃i⦄, f.emptySlot0 = some i → ∃ sl, slots[i]? = some sl ∧ sl.state = .empty
  empty1 : ∀ ⦃i⦄, f.emptySlot1 = some i → (∃ sl, slots[i]? = some sl ∧ sl.state = .empty) ∧
    ∃ j, f.emptySlot0 = some j ∧ j ≠ i

/-- Nothing better is in the list. -/
structure Found.Complete (n : ℕ) (slots : List Slot) (f : Found) : Prop where
  best : ∀ sl ∈ slots, sl.state = .free → n ≤ sl.internalSize →
    ∃ i b, f.fullSlot = some (i, b) ∧ b.internalSize ≤ sl.internalSize
  empty0 : f.emptySlot0 = .none → slots.countP (·.state == .empty) = 0
  empty1 : f.emptySlot1 = .none → slots.countP (·.state == .empty) ≤ 1

def Found.Exact (n : ℕ) (f : Found) : Prop :=
  ∃ i sl, f.fullSlot = some (i, sl) ∧ sl.internalSize = n

theorem Found.Valid.append (h : f.Valid n pre) (rest : List Slot) : f.Valid n (pre ++ rest) := by
  have left : ∀ {i : ℕ} {sl : Slot}, pre[i]? = some sl → (pre ++ rest)[i]? = some sl := fun hi => by
    rw [List.getElem?_append_left (List.getElem?_eq_some_iff.mp hi).1, hi]
  refine ⟨fun i sl hi => ?_, fun i hi => ?_, fun i hi => ?_⟩
  · exact ⟨left (h.full hi).1, (h.full hi).2⟩
  · exact (h.empty0 hi).imp fun _ h' => ⟨left h'.1, h'.2⟩
  · exact ⟨(h.empty1 hi).1.imp fun _ h' => ⟨left h'.1, h'.2⟩, (h.empty1 hi).2⟩

theorem Found.Complete.skip (h : f.Complete n pre) (hfree : sl.state = .free → sl.internalSize < n)
    (he : sl.state ≠ .empty) : f.Complete n (pre ++ [sl]) := by
  have hc : (pre ++ [sl]).countP (·.state == .empty) = pre.countP (·.state == .empty) := by
    rw [List.countP_append, List.countP_singleton, if_neg (by simpa using he), Nat.add_zero]
  refine ⟨fun sl' hm hs hle => ?_, fun h' => hc ▸ h.empty0 h', fun h' => hc ▸ h.empty1 h'⟩
  rcases List.mem_append.mp hm with hm | hm
  · exact h.best sl' hm hs hle
  · rw [List.mem_singleton] at hm
    subst hm
    exact absurd hle (not_le.mpr (hfree hs))

theorem Found.Valid.addFull (h : f.Valid n pre) (hs : sl.state = .free) (hle : n ≤ sl.internalSize) :
    Found.Valid n (pre ++ [sl]) { f with fullSlot := some (pre.length, sl) } := by
  have h' := h.append [sl]
  refine ⟨?_, h'.empty0, h'.empty1⟩
  rintro i sl' ⟨⟩
  exact ⟨by simp, hs, hle⟩

theorem Found.Complete.addFull (h : f.Complete n pre) (hs : sl.state = .free)
    (hb : f.improves sl = true) :
    Found.Complete n (pre ++ [sl]) { f with fullSlot := some (pre.length, sl) } := by
  have hc : (pre ++ [sl]).countP (·.state == .empty) = pre.countP (·.state == .empty) := by
    rw [List.countP_append, List.countP_singleton, if_neg (by simp [hs]), Nat.add_zero]
  refine ⟨fun sl' hm hs' hle => ⟨_, _, rfl, ?_⟩, fun h' => hc ▸ h.empty0 h',
    fun h' => hc ▸ h.empty1 h'⟩
  rcases List.mem_append.mp hm with hm | hm
  · obtain ⟨i, b, hfb, hle'⟩ := h.best sl' hm hs' hle
    simp only [Found.improves, hfb, decide_eq_true_eq] at hb
    exact hb.le.trans hle'
  · rw [List.mem_singleton] at hm
    rw [hm]

theorem Found.Complete.notBetter (h : f.Complete n pre) (hs : sl.state = .free)
    (hb : f.improves sl ≠ true) : f.Complete n (pre ++ [sl]) := by
  have hc : (pre ++ [sl]).countP (·.state == .empty) = pre.countP (·.state == .empty) := by
    rw [List.countP_append, List.countP_singleton, if_neg (by simp [hs]), Nat.add_zero]
  refine ⟨fun sl' hm hs' hle => ?_, fun h' => hc ▸ h.empty0 h', fun h' => hc ▸ h.empty1 h'⟩
  rcases List.mem_append.mp hm with hm | hm
  · exact h.best sl' hm hs' hle
  · rw [List.mem_singleton] at hm
    subst hm
    unfold Found.improves at hb
    cases hf : f.fullSlot with
    | none => simp [hf] at hb
    | some p => exact ⟨p.1, p.2, rfl, by simpa [hf] using hb⟩

theorem Found.Valid.addEmpty (h : f.Valid n pre) (he : sl.state = .empty) :
    (f.addEmpty pre.length).Valid n (pre ++ [sl]) := by
  have h' := h.append [sl]
  have hnew : ∃ sl', (pre ++ [sl])[pre.length]? = some sl' ∧ sl'.state = .empty := ⟨sl, by simp, he⟩
  unfold Found.addEmpty
  cases h0 : f.emptySlot0 with
  | none =>
    refine ⟨h'.full, fun i hi => ?_, fun i hi => ?_⟩
    · cases hi
      exact hnew
    · obtain ⟨-, j, hj, -⟩ := h.empty1 hi
      rw [h0] at hj
      cases hj
  | some j =>
    cases h1 : f.emptySlot1 with
    | some _ => exact h'
    | none =>
      refine ⟨h'.full, fun i hi => h'.empty0 (h0.trans hi), fun i hi => ?_⟩
      cases hi
      obtain ⟨sl', hj, -⟩ := h.empty0 h0
      exact ⟨hnew, j, rfl, (List.getElem?_eq_some_iff.mp hj).1.ne⟩

theorem Found.Complete.addEmpty (h : f.Complete n pre) (he : sl.state = .empty) :
    (f.addEmpty pre.length).Complete n (pre ++ [sl]) := by
  have hc : (pre ++ [sl]).countP (·.state == .empty) = pre.countP (·.state == .empty) + 1 := by
    rw [List.countP_append, List.countP_singleton, if_pos (by simp [he])]
  have hbest : ∀ sl' ∈ pre ++ [sl], sl'.state = .free → n ≤ sl'.internalSize →
      ∃ i b, (f.addEmpty pre.length).fullSlot = some (i, b) ∧ b.internalSize ≤ sl'.internalSize := by
    have hfull : (f.addEmpty pre.length).fullSlot = f.fullSlot := by
      unfold Found.addEmpty; split <;> rfl
    intro sl' hm hs hle
    rw [hfull]
    rcases List.mem_append.mp hm with hm | hm
    · exact h.best sl' hm hs hle
    · rw [List.mem_singleton] at hm
      rw [hm, he] at hs
      cases hs
  refine ⟨hbest, ?_, ?_⟩
  · unfold Found.addEmpty
    cases h0 : f.emptySlot0 <;> cases h1 : f.emptySlot1 <;> simp [h0]
  · rw [hc]
    unfold Found.addEmpty
    cases h0 : f.emptySlot0 with
    | none => exact fun _ => (Nat.add_le_add_right (h.empty0 h0).le 1)
    | some j => cases h1 : f.emptySlot1 <;> simp [h1]

theorem Found.none_valid : Found.none.Valid n [] where
  full _ _ h := (Option.some_ne_none _ h.symm).elim
  empty0 _ h := (Option.some_ne_none _ h.symm).elim
  empty1 _ h := (Option.some_ne_none _ h.symm).elim

theorem Found.none_complete : Found.none.Complete n [] where
  best _ h := absurd h List.not_mem_nil
  empty0 _ := rfl
  empty1 _ := Nat.zero_le 1

/-- The loop invariant: what has been found is valid for the slots seen so far and, unless the
search has ended, there is nothing better among them. -/
theorem searchSlots_from (hv : f.Valid n pre) (hc : f.Complete n pre) :
    (searchSlots n rest pre.length f).Valid n (pre ++ rest) ∧
      ((searchSlots n rest pre.length f).Exact n ∨
        (searchSlots n rest pre.length f).Complete n (pre ++ rest)) := by
  induction rest generalizing pre f with
  | nil =>
    rw [List.append_nil]
    exact ⟨hv, Or.inr hc⟩
  | cons sl rest ih =>
    have next : ∀ {g : Found}, g.Valid n (pre ++ [sl]) → g.Complete n (pre ++ [sl]) →
        (searchSlots n rest (pre.length + 1) g).Valid n (pre ++ sl :: rest) ∧
          ((searchSlots n rest (pre.length + 1) g).Exact n ∨
            (searchSlots n rest (pre.length + 1) g).Complete n (pre ++ sl :: rest)) := by
      intro g hg hg'
      have := ih hg hg'
      rwa [List.length_append, List.length_singleton, List.append_assoc,
        List.singleton_append] at this
    rw [searchSlots]
    split
    · next hs =>
      split
      · next hb =>
        have hv' := hv.addFull hs.1 hs.2
        dsimp only
        split
        · next heq =>
          refine ⟨?_, Or.inl ⟨_, _, rfl, heq⟩⟩
          have := hv'.append rest
          rwa [List.append_assoc, List.singleton_append] at this
        · exact next hv' (hc.addFull hs.1 hb)
      · next hb => exact next (hv.append [sl]) (hc.notBetter hs.1 hb)
    · next hs =>
      split
      · next he => exact next (hv.addEmpty he) (hc.addEmpty he)
      · next he => exact next (hv.append [sl]) (hc.skip (fun h => by
          by_contra hle
          exact hs ⟨h, not_lt.mp hle⟩) he)

theorem searchSlots_spec : (searchSlots n slots 0 Found.none).Valid n slots ∧
    ((searchSlots n slots 0 Found.none).Exact n ∨
      (searchSlots n slots 0 Found.none).Complete n slots) :=
  @searchSlots_from n [] slots _ Found.none_valid Found.none_complete

end Duma

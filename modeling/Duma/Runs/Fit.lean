import Duma.Refine.Search
import Duma.Refine.Views

/-! # Best fit

The search finds a smallest free slot that is large enough, and the first two empty slots if it has
to see the whole list. No chunk is mapped where there is such a slot.
-/

namespace Duma

variable {env : Env} {n al i : ℕ} {slots pre rest : List Slot} {sl : Slot} {f : Found} {r : Request}
  {grow : M Unit} {s t u : State}

section Empties

def emptyIndices (slots : List Slot) : List ℕ := slots.findIdxs (·.state == .empty)

structure Found.Empties (slots : List Slot) (f : Found) : Prop where
  first : f.emptySlot0 = (emptyIndices slots)[0]?
  second : f.emptySlot1 = (emptyIndices slots)[1]?

theorem emptyIndices_append (pre : List Slot) (sl : Slot) : emptyIndices (pre ++ [sl]) =
    if sl.state = .empty then emptyIndices pre ++ [pre.length] else emptyIndices pre := by
  simp only [emptyIndices, List.findIdxs_append, List.findIdxs_singleton, beq_iff_eq, Nat.zero_add]
  split <;> simp

theorem Found.none_empties : Found.none.Empties [] := ⟨rfl, rfl⟩

theorem Found.Empties.skip (h : f.Empties pre) (he : sl.state ≠ .empty) :
    f.Empties (pre ++ [sl]) := by
  constructor
  · rw [h.first, emptyIndices_append, if_neg he]
  · rw [h.second, emptyIndices_append, if_neg he]

theorem Found.Empties.addFull (h : f.Empties pre) (he : sl.state ≠ .empty) (v : Option (ℕ × Slot)) :
    Found.Empties (pre ++ [sl]) { f with fullSlot := v } :=
  ⟨(h.skip he).first, (h.skip he).second⟩

theorem Found.Empties.addEmpty (h : f.Empties pre) (he : sl.state = .empty) :
    (f.addEmpty pre.length).Empties (pre ++ [sl]) := by
  have h0 := h.first
  have h1 := h.second
  have happ := emptyIndices_append pre sl
  rw [if_pos he] at happ
  unfold Found.addEmpty
  -- by the number of empty slots seen before
  match hl : emptyIndices pre with
  | [] =>
    rw [hl] at h0 h1 happ
    rw [h0]
    constructor <;> simp [happ, h1]
  | [j] =>
    rw [hl] at h0 h1 happ
    rw [h0, h1]
    constructor <;> simp [happ]
  | j :: k :: l =>
    rw [hl] at h0 h1 happ
    rw [h0, h1]
    constructor <;> simp [happ, h0, h1]

/-- The loop invariant for the empty slots. -/
theorem searchSlots_empties (h : f.Empties pre) :
    (searchSlots n rest pre.length f).Exact n ∨
      (searchSlots n rest pre.length f).Empties (pre ++ rest) := by
  induction rest generalizing pre f with
  | nil =>
    rw [List.append_nil]
    exact Or.inr h
  | cons sl rest ih =>
    have next : ∀ {g : Found}, g.Empties (pre ++ [sl]) →
        (searchSlots n rest (pre.length + 1) g).Exact n ∨
          (searchSlots n rest (pre.length + 1) g).Empties (pre ++ sl :: rest) := by
      intro g hg
      have := ih hg
      rwa [List.length_append, List.length_singleton, List.append_assoc,
        List.singleton_append] at this
    rw [searchSlots]
    split
    · next hs =>
      have hne : sl.state ≠ .empty := hs.1.trans_ne (by decide)
      split
      · dsimp only
        split
        · next heq => exact Or.inl ⟨_, _, rfl, heq⟩
        · exact next (h.addFull hne _)
      · exact next (h.skip hne)
    · split
      · next he => exact next (h.addEmpty he)
      · next he => exact next (h.skip he)

end Empties

section Full

/-- A free slot that can hold `n` bytes. -/
def HasFit (n : ℕ) (slots : List Slot) : Prop := ∃ sl ∈ slots, sl.state = .free ∧ n ≤ sl.internalSize

theorem fullSlot_none_iff :
    (searchSlots n slots 0 Found.none).fullSlot = none ↔ ¬ HasFit n slots := by
  obtain ⟨hv, hend⟩ := @searchSlots_spec n slots
  constructor
  · rintro hnone ⟨sl, hm, hs, hle⟩
    rcases hend with ⟨i, b, hf, -⟩ | hc
    · rw [hnone] at hf
      cases hf
    · obtain ⟨i, b, hf, -⟩ := hc.best sl hm hs hle
      rw [hnone] at hf
      cases hf
  · intro hno
    cases hf : (searchSlots n slots 0 Found.none).fullSlot with
    | none => rfl
    | some v =>
      obtain ⟨hi, hs, hle⟩ := hv.full hf
      exact absurd ⟨v.2, List.mem_of_getElem? hi, hs, hle⟩ hno

theorem fullSlot_minimal (hf : (searchSlots n slots 0 Found.none).fullSlot = some (i, sl)) :
    slots[i]? = some sl ∧ sl.state = .free ∧ n ≤ sl.internalSize ∧
      ∀ sl' ∈ slots, sl'.state = .free → n ≤ sl'.internalSize →
        sl.internalSize ≤ sl'.internalSize := by
  obtain ⟨hv, hend⟩ := @searchSlots_spec n slots
  obtain ⟨hi, hs, hle⟩ := hv.full hf
  refine ⟨hi, hs, hle, ?_⟩
  intro sl' hm hs' hle'
  rcases hend with ⟨j, b, hb, hn⟩ | hc
  · rw [hf] at hb
    cases hb
    omega
  · obtain ⟨j, b, hb, hbest⟩ := hc.best sl' hm hs' hle'
    rw [hf] at hb
    cases hb
    exact hbest

end Full

section Mapping

abbrev mmapCalls : Config → Book → ℕ := fun _ b => b.mmapCalls

theorem allocateFromSlots_leaves_mmap (h : HasFit n s.slots) :
    Wp (allocateFromSlots env n al r) (fun _ t => t.book.mmapCalls = s.book.mmapCalls)
      (fun _ t => t.book.mmapCalls = s.book.mmapCalls) s := by
  obtain ⟨v, hv⟩ := Option.ne_none_iff_exists'.mp (mt fullSlot_none_iff.mp (not_not.mpr h))
  have hread : Wp (readSlots env) (fun slots t => slots = s.slots ∧ t = s) (fun _ t => t = s) s := by
    refine Wp.bind_iff.mpr (Wp.get_iff.mpr (Wp.bind_iff.mpr (Wp.ite (fun _ => ?_) fun _ => rfl)))
    exact ⟨rfl, rfl⟩
  refine Wp.bind_iff.mpr (Wp.mono hread ?_ ?_)
  · rintro _ t ⟨rfl, rfl⟩
    dsimp only
    rw [hv]
    exact Leaves.bind (f := State.view mmapCalls) leaves_pure
      (fun _ => serveSlot_leaves fun _ _ _ => rfl) t
  · rintro _ t rfl
    rfl

theorem allocateServe_leaves_mmap (hp : allocateProlog env grow r s = .ok () u)
    (h : HasFit n u.slots) :
    Wp (allocateServe env grow n al r) (fun _ t => t.book.mmapCalls = u.book.mmapCalls)
      (fun _ t => t.book.mmapCalls = u.book.mmapCalls) s := by
  have : allocateServe env grow n al r s = (do
      let p ← allocateFromSlots env n al r
      allocateEpilog env p r : M ℕ) u := Wp.bind_of_ok hp
  unfold Wp
  rw [this]
  refine Wp.bind_iff.mpr (Wp.mono (allocateFromSlots_leaves_mmap h) ?_ fun _ _ => id)
  intro p t ht
  exact (allocateEpilog_leaves (g := mmapCalls) fun _ _ _ => rfl).wp ht

end Mapping

/-- The search is best fit, and a chunk is mapped only if no free slot can hold the request. -/
theorem search_best_fit (slots : List Slot) (n : ℕ) :
    ((searchSlots n slots 0 Found.none).fullSlot = none ↔
      ∀ sl ∈ slots, sl.state = .free → ¬ n ≤ sl.internalSize) ∧
    (∀ i sl, (searchSlots n slots 0 Found.none).fullSlot = some (i, sl) →
      slots[i]? = some sl ∧ sl.state = .free ∧ n ≤ sl.internalSize ∧
        ∀ sl' ∈ slots, sl'.state = .free → n ≤ sl'.internalSize →
          sl.internalSize ≤ sl'.internalSize) ∧
    ((∀ i sl, (searchSlots n slots 0 Found.none).fullSlot = some (i, sl) → sl.internalSize ≠ n) →
      (searchSlots n slots 0 Found.none).emptySlot0 = (emptyIndices slots)[0]? ∧
      (searchSlots n slots 0 Found.none).emptySlot1 = (emptyIndices slots)[1]?) ∧
    ∀ (env : Env) (grow : M Unit) (al : ℕ) (r : Request) (s u : State), u.slots = slots →
      allocateProlog env grow r s = .ok () u → HasFit n slots →
        Wp (allocateServe env grow n al r) (fun _ t => t.book.mmapCalls = u.book.mmapCalls)
          (fun _ t => t.book.mmapCalls = u.book.mmapCalls) s := by
  refine ⟨?_, fun i sl hf => fullSlot_minimal hf, fun hne => ?_, ?_⟩
  · rw [fullSlot_none_iff]
    constructor
    · intro h sl hm hs hle
      exact h ⟨sl, hm, hs, hle⟩
    · rintro h ⟨sl, hm, hs, hle⟩
      exact h sl hm hs hle
  · rcases @searchSlots_empties n [] slots _ Found.none_empties with ⟨i, sl, hf, hn⟩ | he
    · exact absurd hn (hne i sl hf)
    · exact ⟨he.first, he.second⟩
  · rintro env grow al r s u rfl hp h
    exact allocateServe_leaves_mmap hp h

end Duma

import Duma.Region.Step

/-! # Numbers and sizes of slots

How many slots are in a state and how much memory the slots of a kind have, and what an assignment
to one slot does to these totals.
-/

namespace Duma

variable {env : Env} {s s' : State} {i n m : ℕ} {sl new : Slot} {p : Page} {q : Slot → Bool}

section Size

theorem kB_le (n : ℕ) : kB n < 2 ^ 54 := by
  have := Word.add_lt n 1023
  unfold kB
  omega

theorem kB_of_dvd (hn : 1024 ∣ n) (hlt : n + 1023 < 2 ^ 64) : kB n * 1024 = n := by
  rw [kB, Word.add_eq hlt]
  omega

theorem kB_add (hn : 1024 ∣ n) (hm : 1024 ∣ m) (hlt : n + m + 1023 < 2 ^ 64) :
    kB (n + m) = kB n + kB m := by
  have h1 := kB_of_dvd hn (by omega)
  have h2 := kB_of_dvd hm (by omega)
  have h3 := kB_of_dvd (Nat.dvd_add hn hm) hlt
  omega

theorem Slot.RegionOk.kB_eq (hr : sl.RegionOk env) (hP : 1024 ∣ env.pageSize) :
    kB sl.internalSize * 1024 = sl.internalSize := by
  have := hr.le
  have := env.taskSize_le
  exact kB_of_dvd (hP.trans hr.size_dvd) (by omega)

end Size

section Count

def State.count (s : State) (st : SlotState) : ℕ := s.slots.countP (·.state == st)

theorem State.count_congr (h : s'.slots = s.slots) (st : SlotState) : s'.count st = s.count st := by
  rw [State.count, State.count, h]

theorem State.count_putSlot {v : Slot} (h : s.slots[i]? = some sl) (st : SlotState) :
    (s.putSlot i v).count st + (if sl.state = st then 1 else 0) =
      s.count st + if v.state = st then 1 else 0 := by
  obtain ⟨hlt, hget⟩ := List.getElem?_eq_some_iff.mp h
  have hpos : sl.state = st → 0 < s.slots.countP (·.state == st) := fun he =>
    List.countP_pos_iff.mpr ⟨sl, List.mem_of_getElem? h, by simp [he]⟩
  rw [State.count, State.putSlot_slots, List.countP_set hlt, hget, State.count]
  by_cases he : sl.state = st
  · have := hpos he
    simp only [he, beq_self_eq_true, if_true, beq_iff_eq]
    omega
  · simp [he]

theorem State.count_le_length (s : State) (st : SlotState) : s.count st ≤ s.slots.length :=
  List.countP_le_length

theorem State.count_eq_zero {st : SlotState} :
    s.count st = 0 ↔ ∀ sl ∈ s.slots, sl.state ≠ st := by
  simp [State.count, List.countP_eq_zero]

theorem State.count_pos_iff {st : SlotState} :
    0 < s.count st ↔ ∃ sl ∈ s.slots, sl.state = st := by
  simp [State.count, List.countP_pos_iff]

end Count

section Total

theorem State.totalkB_congr (h : s'.slots = s.slots) (q : Slot → Bool) :
    s'.totalkB q = s.totalkB q := by
  rw [State.totalkB, State.totalkB, h]

def Slot.kBIf (q : Slot → Bool) (sl : Slot) : ℕ := if q sl then kB sl.internalSize else 0

theorem sum_map_set {f : Slot → ℕ} {slots : List Slot} (h : slots[i]? = some sl) :
    ((slots.set i new).map f).sum + f sl = (slots.map f).sum + f new := by
  induction slots generalizing i with
  | nil => cases h
  | cons head rest ih =>
    cases i with
    | zero =>
      cases h
      simp only [List.set_cons_zero, List.map_cons, List.sum_cons]
      omega
    | succ i =>
      have := ih h
      simp only [List.set_cons_succ, List.map_cons, List.sum_cons]
      omega

theorem State.totalkB_putSlot {v : Slot} (h : s.slots[i]? = some sl) (q : Slot → Bool) :
    (s.putSlot i v).totalkB q + sl.kBIf q = s.totalkB q + v.kBIf q := by
  rw [State.totalkB, State.putSlot_slots]
  exact sum_map_set h

theorem State.totalkB_eq_zero (h : ∀ sl ∈ s.slots, q sl = false) : s.totalkB q = 0 := by
  rw [State.totalkB, List.sum_eq_zero_iff]
  intro n hn
  obtain ⟨sl, hsl, rfl⟩ := List.mem_map.mp hn
  rw [h sl hsl]
  rfl

theorem State.totalkB_add (s : State) {q q' p : Slot → Bool} (h : ∀ sl, p sl = (q sl || q' sl))
    (hd : ∀ sl, (q sl && q' sl) = false) : s.totalkB p = s.totalkB q + s.totalkB q' := by
  unfold State.totalkB
  induction s.slots with
  | nil => rfl
  | cons sl rest ih =>
    have hone : sl.kBIf p = sl.kBIf q + sl.kBIf q' := by
      have := hd sl
      rw [Slot.kBIf, Slot.kBIf, Slot.kBIf, h sl]
      cases hq : q sl <;> cases hq' : q' sl <;> simp_all
    simp only [Slot.kBIf] at hone
    simp only [List.map_cons, List.sum_cons]
    omega

theorem Slot.guards_iff : sl.guards = true ↔ sl.IsProtected := by
  simp [Slot.guards, Slot.IsProtected]

theorem Slot.kBIf_guards (h : sl.IsProtected) : sl.kBIf Slot.guards = kB sl.internalSize := by
  rw [Slot.kBIf, if_pos (Slot.guards_iff.mpr h)]

theorem Slot.kBIf_not (h : ¬ sl.IsProtected) : sl.kBIf Slot.guards = 0 := by
  rw [Slot.kBIf, if_neg (mt Slot.guards_iff.mp h)]

end Total

section Evict

theorem State.protectedkB_shrunk (hP : 1024 ∣ env.pageSize) (hc : Core env s)
    (hi : s.slots[i]? = some sl) (hs : sl.IsProtected) :
    (s.shrunk env i sl p).protectedkB + kB (Word.sub sl.internalSize (sl.keptSize env)) =
      s.protectedkB := by
  have hwf := hc.slot hi
  have hr := hwf.region hs.ne_empty
  obtain ⟨h1, -, h3⟩ := Slot.keptSize_spec hr (hwf.owns_of_protected hs)
  obtain ⟨-, hw⟩ := Slot.kept_word hr (hwf.owns_of_protected hs)
  have hput := State.totalkB_putSlot (s := s.deleted env (Word.add sl.internalAddress
    (sl.keptSize env)) (Word.sub sl.internalSize (sl.keptSize env)) p) (i := i)
    (v := { sl with state := .beginProtected, internalSize := sl.keptSize env }) hi Slot.guards
  have hsame : (s.deleted env (Word.add sl.internalAddress (sl.keptSize env))
    (Word.sub sl.internalSize (sl.keptSize env)) p).totalkB Slot.guards =
      s.totalkB Slot.guards := rfl
  have hle := hr.le
  have ht := env.taskSize_le
  have hadd := kB_add (hP.trans h1) (hP.trans (Nat.dvd_sub hr.size_dvd h1)) (by omega)
  rw [Nat.add_sub_cancel' h3] at hadd
  rw [Slot.kBIf_guards hs, Slot.kBIf_guards (Or.inr rfl), hsame] at hput
  rw [hw, State.protectedkB, State.protectedkB, State.shrunk, hw]
  rw [hw] at hput
  simp only at hput
  omega

theorem State.protectedkB_dropped (hi : s.slots[i]? = some sl) (hs : sl.IsProtected) :
    (s.dropped env i sl p).protectedkB + kB sl.internalSize = s.protectedkB := by
  have hput := State.totalkB_putSlot (s := s.deleted env sl.internalAddress sl.internalSize p)
    (i := i) (v := sl.emptied) hi Slot.guards
  have hsame : (s.deleted env sl.internalAddress sl.internalSize p).totalkB Slot.guards =
    s.totalkB Slot.guards := rfl
  have hne : ¬ sl.emptied.IsProtected := by simp [Slot.IsProtected, Slot.emptied]
  rw [Slot.kBIf_guards hs, Slot.kBIf_not hne, hsame] at hput
  exact hput

end Evict

end Duma

import Mathlib.Order.Interval.Finset.Nat
import Duma.Refine.Chunk
import Duma.Runs.Admitted

/-! # Evictions and the loop around them

What an eviction reports is what it has done, and the loop that asks for a chunk again after every
eviction ends, however the slots look and whatever the operating system answers.
-/

namespace Duma

variable {env : Env} {s t u : State} {k size m i count a fuel : ℕ} {more : Bool} {α β : Type}

section Report

/-- The slot with the memory above the page of its user address freed. -/
def Slot.toBegin (env : Env) (sl : Slot) : Slot :=
  if sl.state = .allProtected then
    { sl with state := .beginProtected, internalSize := sl.keptSize env }
  else sl

/-- The slot emptied, if only the beginning of its memory was left. -/
def Slot.toEmpty (sl : Slot) : Slot := if sl.state = .beginProtected then sl.emptied else sl

def deletedMem : List Event → ℕ
  | [] => 0
  | .delete _ n :: t => n + deletedMem t
  | _ :: t => deletedMem t

/-- The protected slots have regions of whole pages, whole numbers of kB each, that contain their
user addresses, and the size of all of them is a size. -/
structure State.PageGranular (env : Env) (s : State) : Prop where
  page : 1024 ∣ env.pageSize
  region : ∀ sl ∈ s.slots, sl.IsProtected → sl.RegionOk env
  user : ∀ sl ∈ s.slots, sl.IsProtected → sl.Owns sl.userAddress
  total : s.protectedkB < 2 ^ 64

/-- The protected slots have mapped pages of their own, and the list is open for access. -/
structure State.Standing (env : Env) (s : State) : Prop where
  «open» : Open env s
  mapped : ∀ sl ∈ s.slots, sl.IsProtected → ∀ x, sl.Owns x → s.page env x ≠ .unmapped
  apart : ∀ sl ∈ s.slots, sl.IsProtected → ∀ x, sl.Owns x →
    ¬ (s.allocList ≤ x ∧ x < s.allocList + s.allocListSize)
  disjoint : ∀ (i j : ℕ) (sl sl' : Slot) (x : ℕ), s.slots[i]? = some sl → s.slots[j]? = some sl' →
    sl.IsProtected → sl'.IsProtected → sl.Owns x → sl'.Owns x → i = j

/-- The first `m` slots have been changed by `f`, and the memory that this takes from them has been
given to `Page_Delete`. -/
structure Pass (env : Env) (f : Slot → Slot) (m : ℕ) (s t : State) : Prop where
  slots : ∀ j, t.slots[j]? = if j < m then (s.slots[j]?).map f else s.slots[j]?
  page : ∀ x, t.page env x ≠ s.page env x →
    ∃ j < m, ∃ sl, s.slots[j]? = some sl ∧ sl.Owns x ∧ ¬ (f sl).Owns x
  gone : ∀ j < m, ∀ sl, s.slots[j]? = some sl → ∀ x, sl.Owns x → ¬ (f sl).Owns x →
    t.page env x ≠ .readWrite ∧ ((∀ k, env.munmap k = true) → t.page env x = .unmapped)
  le : t.protectedkB ≤ s.protectedkB
  deleted : deletedMem t.trace = deletedMem s.trace + 1024 * (s.protectedkB - t.protectedkB)
  list : t.allocList = s.allocList ∧ t.allocListSize = s.allocListSize

variable {f : Slot → Slot} {s₀ : State} {sl : Slot} {p : Page} {lo n : ℕ}

theorem deletedMem_putSlot (v : Slot) : deletedMem (s.putSlot i v).trace = deletedMem s.trace := by
  unfold State.putSlot
  split
  · rfl
  · split <;> rfl

theorem pageDelete_report {E : Stop → State → Prop} {Q : Unit → State → Prop}
    (ha : env.pageSize ∣ a) (hn : a + env.roundUp n ≤ env.taskSize)
    (hQ : ∀ p, p ≠ .readWrite → (0 < n → (∀ k, env.munmap k = true) → p = .unmapped) →
      Q () (s.afterMunmap.deleted env a n p))
    (hE : ¬ MprotectOk env s a n → E (.abort .mprotectFailed) s.afterMunmap) :
    Wp (pageDelete env a n) Q E s := by
  refine Wp.bind_iff.mpr (Wp.bind_iff.mpr (Wp.get_iff.mpr (Wp.bind_iff.mpr ?_)))
  change Wp _ _ E s.afterMunmap
  refine Wp.ite (fun _ => ?_) fun hno => ?_
  · exact hQ .unmapped nofun fun _ _ => rfl
  · refine Wp.bind_iff.mpr (mprotect_wp (fun _ => ?_) fun h =>
      hE fun h' => h ⟨h'.dvd, h'.le, h'.mapped⟩)
    refine hQ .noAccess nofun fun h0 hall => absurd ?_ hno
    simp [hall, ha, h0, hn]

namespace Pass

theorem refl (f : Slot → Slot) (s : State) : Pass env f 0 s s :=
  ⟨fun j => by simp, fun x h => absurd rfl h, nofun, le_rfl, by simp, rfl, rfl⟩

theorem get (h : Pass env f i s₀ s) (hi : s₀.slots[i]? = some sl) : s.slots[i]? = some sl := by
  rw [h.slots i, if_neg (lt_irrefl i), hi]

theorem length (h : Pass env f m s₀ s) : s.slots.length = s₀.slots.length := by
  refine Nat.le_antisymm ?_ ?_
  · have := h.slots s₀.slots.length
    simp only [List.getElem?_eq_none le_rfl, Option.map_none, ite_self] at this
    exact List.getElem?_eq_none_iff.mp this
  · have := h.slots s.slots.length
    rw [List.getElem?_eq_none le_rfl] at this
    split at this
    · exact List.getElem?_eq_none_iff.mp (Option.map_eq_none_iff.mp this.symm)
    · exact List.getElem?_eq_none_iff.mp this.symm

theorem skip (h : Pass env f i s₀ s) (hi : s₀.slots[i]? = some sl) (hf : f sl = sl) :
    Pass env f (i + 1) s₀ s := by
  refine ⟨fun j => ?_, fun x hx => ?_, fun j hj sl' hj' x ho hn => ?_, h.le, h.deleted, h.list⟩
  · rw [h.slots j]
    rcases Nat.lt_trichotomy j i with hlt | rfl | hgt
    · rw [if_pos hlt, if_pos (by omega)]
    · rw [if_neg (lt_irrefl j), if_pos (Nat.lt_succ_self j), hi, Option.map_some, hf]
    · rw [if_neg (by omega), if_neg (by omega)]
  · obtain ⟨j, hj, h'⟩ := h.page x hx
    exact ⟨j, by omega, h'⟩
  · rcases Nat.lt_succ_iff_lt_or_eq.mp hj with hlt | rfl
    · exact h.gone j hlt sl' hj' x ho hn
    · rw [hi] at hj'
      cases hj'
      exact absurd (hf.symm ▸ ho) hn

theorem step (h : Pass env f i s₀ s) (hi : s₀.slots[i]? = some sl) (hlo : env.pageSize ∣ lo)
    (hn : env.pageSize ∣ n) (hrange : ∀ x, lo ≤ x ∧ x < lo + n ↔ sl.Owns x ∧ ¬ (f sl).Owns x)
    (hp : p ≠ .readWrite) (hp' : 0 < n → (∀ k, env.munmap k = true) → p = .unmapped)
    (hkB : (f sl).kBIf Slot.guards + kB n = sl.kBIf Slot.guards) (hn' : kB n * 1024 = n) :
    Pass env f (i + 1) s₀ ((s.afterMunmap.deleted env lo n p).putSlot i (f sl)) := by
  have hs : (s.afterMunmap.deleted env lo n p).slots[i]? = some sl := h.get hi
  have hru := Env.roundUp_of_dvd hn
  have hpage : ∀ x, ((s.afterMunmap.deleted env lo n p).putSlot i (f sl)).page env x =
      if lo ≤ x ∧ x < lo + n then p else s.page env x := fun x => by
    rw [State.putSlot_page, State.deleted_page hlo, hru]
    rfl
  have htotal : ((s.afterMunmap.deleted env lo n p).putSlot i (f sl)).protectedkB + kB n =
      s.protectedkB := by
    have h1 := State.totalkB_putSlot (v := f sl) hs Slot.guards
    have h2 : (s.afterMunmap.deleted env lo n p).totalkB Slot.guards = s.protectedkB := rfl
    unfold State.protectedkB at *
    omega
  have hle := h.le
  refine ⟨fun j => ?_, fun x hx => ?_, fun j hj sl' hj' x ho hno => ?_, by omega, ?_, ?_⟩
  · rw [State.getElem?_putSlot hs]
    change (if i = j then some (f sl) else s.slots[j]?) = _
    rw [h.slots j]
    rcases Nat.lt_trichotomy j i with hlt | rfl | hgt
    · rw [if_neg (by omega), if_pos hlt, if_pos (by omega)]
    · rw [if_pos rfl, if_pos (Nat.lt_succ_self j), hi, Option.map_some]
    · rw [if_neg (by omega), if_neg (by omega), if_neg (by omega)]
  · rw [hpage x] at hx
    split at hx
    · next hin =>
      obtain ⟨ho, hno⟩ := (hrange x).mp hin
      exact ⟨i, Nat.lt_succ_self i, sl, hi, ho, hno⟩
    · obtain ⟨j, hj, h'⟩ := h.page x hx
      exact ⟨j, by omega, h'⟩
  · rw [hpage x]
    split
    · next hin => exact ⟨hp, hp' (by omega)⟩
    · next hout =>
      rcases Nat.lt_succ_iff_lt_or_eq.mp hj with hlt | rfl
      · exact h.gone j hlt sl' hj' x ho hno
      · rw [hi] at hj'
        cases hj'
        exact absurd ((hrange x).mpr ⟨ho, hno⟩) hout
  · rw [deletedMem_putSlot]
    change env.roundUp n + deletedMem s.trace = _
    have := h.deleted
    omega
  · rw [State.putSlot_allocList, State.putSlot_allocListSize]
    exact h.list

theorem at_slot {v : Slot} (h : Pass env f m s₀ s) (hv : s.slots[i]? = some v) :
    ∃ sl, s₀.slots[i]? = some sl ∧ (i < m ∧ v = f sl ∨ ¬ i < m ∧ v = sl) := by
  rw [h.slots i] at hv
  split at hv
  · next hi =>
    obtain ⟨sl, hsl, rfl⟩ := Option.map_eq_some_iff.mp hv
    exact ⟨sl, hsl, Or.inl ⟨hi, rfl⟩⟩
  · next hi => exact ⟨v, hv, Or.inr ⟨hi, rfl⟩⟩

theorem page_eq {x : ℕ} (h : Pass env f m s₀ s)
    (hx : ∀ j < m, ∀ sl, s₀.slots[j]? = some sl → sl.Owns x → (f sl).Owns x) :
    s.page env x = s₀.page env x := by
  by_contra hne
  obtain ⟨j, hj, sl, hsl, ho, hno⟩ := h.page x hne
  exact hno (hx j hj sl hsl ho)

def Guards (f : Slot → Slot) : Prop := ∀ sl, ¬ sl.IsProtected → f sl = sl

theorem «open» (h : Pass env f m s₀ s) (hf : Guards f) (hst : s₀.Standing env) : Open env s := by
  intro x h1 h2
  rw [h.list.1] at h1
  rw [h.list.1, h.list.2] at h2
  rw [h.page_eq fun j _ sl hj ho => ?_, hst.open x h1 h2]
  by_cases hp : sl.IsProtected
  · exact absurd ⟨h1, h2⟩ (hst.apart sl (List.mem_of_getElem? hj) hp x ho)
  · rw [hf sl hp]
    exact ho

theorem mapped {x : ℕ} (h : Pass env f m s₀ s) (hf : Guards f) (hst : s₀.Standing env)
    (hi : s₀.slots[i]? = some sl) (hp : sl.IsProtected) (ho : sl.Owns x)
    (hx : i < m → (f sl).Owns x) : s.page env x ≠ .unmapped := by
  rw [h.page_eq fun j hj sl' hj' ho' => ?_]
  · exact hst.mapped sl (List.mem_of_getElem? hi) hp x ho
  · by_cases hp' : sl'.IsProtected
    · obtain rfl := hst.disjoint i j sl sl' x hi hj' hp hp' ho ho'
      rw [hi] at hj'
      cases hj'
      exact hx hj
    · rw [hf sl' hp']
      exact ho'

theorem evict_wp {g : Slot → Slot} {h' : Unit → M β} {T : β → State → Prop}
    (h : Pass env f i s₀ s) (hf : Guards f) (hi : s₀.slots[i]? = some sl) (hg : g sl = f sl)
    (hsl : sl.IsProtected) (hr : sl.RegionOk env) (hlo : env.pageSize ∣ lo) (hn : env.pageSize ∣ n)
    (hle : lo + n ≤ sl.internalAddress + sl.internalSize)
    (hrange : ∀ x, lo ≤ x ∧ x < lo + n ↔ sl.Owns x ∧ ¬ (f sl).Owns x)
    (hkB : (f sl).kBIf Slot.guards + kB n = sl.kBIf Slot.guards) (hn' : kB n * 1024 = n)
    (hT : ∀ t, Pass env f (i + 1) s₀ t → t.protectedkB + kB n = s.protectedkB →
      Wp (h' ()) T (fun _ _ => ¬ s₀.Standing env) t) :
    Wp (pageDelete env lo n >>= fun _ => modifySlot env i g >>= h') T
      (fun _ _ => ¬ s₀.Standing env) s := by
  have hru := Env.roundUp_of_dvd hn
  have hend := hr.le
  refine Wp.bind_iff.mpr (pageDelete_report hlo (by omega) (fun p hp hp' => ?_) fun hno hst => ?_)
  · have hs : (s.afterMunmap.deleted env lo n p).slots[i]? = some sl := h.get hi
    refine Wp.bind_iff.mpr (modifySlot_wp hs ?_ fun hno hst => hno fun x h1 h2 => ?_)
    · rw [hg]
      refine hT _ (h.step hi hlo hn hrange hp hp' hkB hn') ?_
      have h1 := State.totalkB_putSlot (v := f sl) hs Slot.guards
      have h2 : (s.afterMunmap.deleted env lo n p).totalkB Slot.guards = s.protectedkB := rfl
      unfold State.protectedkB at *
      omega
    · rw [State.deleted_page hlo, if_neg]
      · exact h.open hf hst x h1 h2
      · intro hin
        refine hst.apart sl (List.mem_of_getElem? hi) hsl x ((hrange x).mp (by omega)).1 ⟨?_, ?_⟩
        · exact h.list.1 ▸ h1
        · exact h.list.1 ▸ h.list.2 ▸ h2
  · refine hno ⟨hlo, by omega, fun x h1 h2 => ?_⟩
    exact h.mapped hf hst hi hsl ((hrange x).mp (by omega)).1 fun hlt => absurd hlt (lt_irrefl i)

end Pass

theorem toBegin_guards : Pass.Guards (Slot.toBegin env) := fun _ h =>
  if_neg fun hs => h (Or.inl hs)

theorem toEmpty_guards : Pass.Guards Slot.toEmpty := fun _ h => if_neg fun hs => h (Or.inr hs)

theorem Slot.toBegin_isProtected : (sl.toBegin env).IsProtected ↔ sl.IsProtected := by
  unfold Slot.toBegin
  split
  · next h => exact ⟨fun _ => Or.inl h, fun _ => Or.inr rfl⟩
  · exact Iff.rfl

theorem Slot.toBegin_region (hr : sl.RegionOk env) (hu : sl.Owns sl.userAddress) :
    (sl.toBegin env).RegionOk env ∧ (sl.toBegin env).Owns sl.userAddress ∧
      (sl.toBegin env).internalSize ≤ sl.internalSize := by
  unfold Slot.toBegin
  split
  · obtain ⟨h1, h2, h3⟩ := Slot.keptSize_spec hr hu
    obtain ⟨hu1, -⟩ := hu
    have := hr.le
    refine ⟨⟨hr.pos, hr.dvd, h1, ?_, ?_⟩, ⟨hu1, h2⟩, h3⟩ <;> dsimp only <;> omega
  · exact ⟨hr, hu, le_rfl⟩

theorem Slot.toBegin_owns {x : ℕ} (hr : sl.RegionOk env) (hu : sl.Owns sl.userAddress)
    (h : (sl.toBegin env).Owns x) : sl.Owns x := by
  have hle := (Slot.toBegin_region hr hu).2.2
  have haddr : (sl.toBegin env).internalAddress = sl.internalAddress := by
    unfold Slot.toBegin
    split <;> rfl
  unfold Slot.Owns at *
  omega

namespace Pass

theorem granular (h : Pass env (Slot.toBegin env) m s₀ s) (hg : s₀.PageGranular env) :
    s.PageGranular env := by
  have hslot : ∀ v ∈ s.slots, v.IsProtected → v.RegionOk env ∧ v.Owns v.userAddress := by
    intro v hv hp
    obtain ⟨j, hj⟩ := List.mem_iff_getElem?.mp hv
    obtain ⟨sl, hsl, ⟨-, rfl⟩ | ⟨-, rfl⟩⟩ := h.at_slot hj
    · have hmem := List.mem_of_getElem? hsl
      rw [Slot.toBegin_isProtected] at hp
      obtain ⟨h1, h2, -⟩ := Slot.toBegin_region (hg.region sl hmem hp) (hg.user sl hmem hp)
      refine ⟨h1, ?_⟩
      have : (sl.toBegin env).userAddress = sl.userAddress := by
        unfold Slot.toBegin
        split <;> rfl
      rwa [this]
    · have hmem := List.mem_of_getElem? hsl
      exact ⟨hg.region v hmem hp, hg.user v hmem hp⟩
  exact ⟨hg.page, fun v hv hp => (hslot v hv hp).1, fun v hv hp => (hslot v hv hp).2,
    h.le.trans_lt hg.total⟩

theorem owned {v : Slot} (h : Pass env (Slot.toBegin env) m s₀ s) (hg : s₀.PageGranular env)
    (hv : s.slots[i]? = some v) (hp : v.IsProtected) :
    ∃ sl, s₀.slots[i]? = some sl ∧ sl.IsProtected ∧ (∀ x, v.Owns x → sl.Owns x) ∧
      ∀ x, v.Owns x → i < m → (sl.toBegin env).Owns x := by
  obtain ⟨sl, hsl, ⟨hi, rfl⟩ | ⟨hi, rfl⟩⟩ := h.at_slot hv
  · have hmem := List.mem_of_getElem? hsl
    rw [Slot.toBegin_isProtected] at hp
    exact ⟨sl, hsl, hp, fun x => Slot.toBegin_owns (hg.region sl hmem hp) (hg.user sl hmem hp),
      fun x hx _ => hx⟩
  · exact ⟨v, hsl, hp, fun x hx => hx, fun x _ hlt => absurd hlt hi⟩

theorem standing (h : Pass env (Slot.toBegin env) m s₀ s) (hg : s₀.PageGranular env)
    (hst : s₀.Standing env) : s.Standing env := by
  refine ⟨h.open toBegin_guards hst, fun v hv hp x ho => ?_, fun v hv hp x ho => ?_,
    fun i j v w x hi hj hp hp' ho ho' => ?_⟩
  · obtain ⟨j, hj⟩ := List.mem_iff_getElem?.mp hv
    obtain ⟨sl, hsl, hp', hown, hkept⟩ := h.owned hg hj hp
    exact h.mapped toBegin_guards hst hsl hp' (hown x ho) (hkept x ho)
  · obtain ⟨j, hj⟩ := List.mem_iff_getElem?.mp hv
    obtain ⟨sl, hsl, hp', hown, -⟩ := h.owned hg hj hp
    rw [h.list.1, h.list.2]
    exact hst.apart sl (List.mem_of_getElem? hsl) hp' x (hown x ho)
  · obtain ⟨sl, hsl, hq, hown, -⟩ := h.owned hg hi hp
    obtain ⟨sl', hsl', hq', hown', -⟩ := h.owned hg hj hp'
    exact hst.disjoint i j sl sl' x hsl hsl' hq hq' (hown x ho) (hown' x ho')

end Pass

/-- How a loop over the slots of `s₀` ends that has already released `c - s₀.protectedkB` kB. -/
def Ended (env : Env) (f : Slot → Slot) (k c : ℕ) (s₀ : State) (v : ℕ × Bool) (t : State) : Prop :=
  ∃ m, m ≤ s₀.slots.length ∧ Pass env f m s₀ t ∧ v.1 + t.protectedkB = c ∧
    if v.2 then k ≤ v.1 else v.1 < k ∧ m = s₀.slots.length

theorem reduceToBegin_ended {c : ℕ} (hg : s₀.PageGranular env) (hc : c < 2 ^ 64)
    (h : Pass env (Slot.toBegin env) i s₀ s) (hi : i + count = s₀.slots.length)
    (ha : a + s.protectedkB = c) (hk : a < k) :
    Wp (reduceToBegin env k count i a) (Ended env (Slot.toBegin env) k c s₀)
      (fun _ _ => ¬ s₀.Standing env) s := by
  induction count generalizing s i a with
  | zero => exact ⟨i, by omega, h, ha, hk, by omega⟩
  | succ count ih =>
    obtain ⟨sl, hsl⟩ : ∃ sl, s₀.slots[i]? = some sl :=
      ⟨s₀.slots[i], List.getElem?_eq_getElem (by omega)⟩
    refine Wp.ite (fun hle => absurd hle (by omega)) fun _ => ?_
    refine Wp.bind_iff.mpr (readSlot_wp (h.get hsl) ?_ fun hno hst => hno (h.open toBegin_guards hst))
    refine Wp.ite (fun hs => ?_) fun hs => ih (h.skip hsl (if_neg hs)) (by omega) ha hk
    have hmem := List.mem_of_getElem? hsl
    have hr := hg.region sl hmem (Or.inl hs)
    have hu := hg.user sl hmem (Or.inl hs)
    obtain ⟨h1, h2, h3⟩ := Slot.keptSize_spec hr hu
    obtain ⟨hw1, hw2⟩ := Slot.kept_word hr hu
    have htask := env.taskSize_le
    have hend := hr.le
    have hf : sl.toBegin env =
        { sl with state := .beginProtected, internalSize := sl.keptSize env } := if_pos hs
    have hd : env.pageSize ∣ sl.internalSize - sl.keptSize env := Nat.dvd_sub hr.size_dvd h1
    have hkd : kB (sl.internalSize - sl.keptSize env) * 1024 = sl.internalSize - sl.keptSize env :=
      kB_of_dvd (hg.page.trans hd) (by omega)
    dsimp only
    rw [hw1, hw2]
    refine h.evict_wp toBegin_guards hsl hf.symm (Or.inl hs) hr (Nat.dvd_add hr.dvd h1) hd (by omega)
      (fun x => ?_) ?_ hkd fun t ht hkB => ?_
    · rw [hf]
      unfold Slot.Owns
      dsimp only
      omega
    · rw [Slot.kBIf_guards (Or.inl hs), Slot.kBIf_guards (Slot.toBegin_isProtected.mpr (Or.inl hs)), hf]
      have h4 := kB_of_dvd (hg.page.trans h1) (by omega)
      have h5 := hr.kB_eq hg.page
      dsimp only
      omega
    · rw [Word.add_eq (by omega)]
      exact Wp.ite (fun hle => ⟨i + 1, by omega, ht, by omega, hle⟩) fun hle =>
        ih ht (by omega) (by omega) (by omega)

theorem reduceToEmpty_ended {c : ℕ} (hg : s₀.PageGranular env) (hc : c < 2 ^ 64)
    (h : Pass env Slot.toEmpty i s₀ s) (hi : i + count = s₀.slots.length)
    (ha : a + s.protectedkB = c) (hk : a < k) :
    Wp (reduceToEmpty env k count i a) (Ended env Slot.toEmpty k c s₀)
      (fun _ _ => ¬ s₀.Standing env) s := by
  induction count generalizing s i a with
  | zero => exact ⟨i, by omega, h, ha, hk, by omega⟩
  | succ count ih =>
    obtain ⟨sl, hsl⟩ : ∃ sl, s₀.slots[i]? = some sl :=
      ⟨s₀.slots[i], List.getElem?_eq_getElem (by omega)⟩
    refine Wp.ite (fun hle => absurd hle (by omega)) fun _ => ?_
    refine Wp.bind_iff.mpr (readSlot_wp (h.get hsl) ?_ fun hno hst => hno (h.open toEmpty_guards hst))
    refine Wp.ite (fun hs => ?_) fun hs => ih (h.skip hsl (if_neg hs)) (by omega) ha hk
    have hr := hg.region sl (List.mem_of_getElem? hsl) (Or.inr hs)
    have hf : sl.toEmpty = sl.emptied := if_pos hs
    refine h.evict_wp toEmpty_guards hsl hf.symm (Or.inr hs) hr hr.dvd hr.size_dvd le_rfl
      (fun x => ?_) ?_ (hr.kB_eq hg.page) fun t ht hkB => ?_
    · rw [hf]
      unfold Slot.Owns Slot.emptied
      dsimp only
      omega
    · have hne : ¬ sl.emptied.IsProtected := by simp [Slot.IsProtected, Slot.emptied]
      rw [Slot.kBIf_guards (Or.inr hs), hf, Slot.kBIf_not hne, Nat.zero_add]
    · rw [Word.add_eq (by omega)]
      exact Wp.ite (fun hle => ⟨i + 1, by omega, ht, by omega, hle⟩) fun hle =>
        ih ht (by omega) (by omega) (by omega)

theorem Slot.toBegin_state_ne : (sl.toBegin env).state ≠ .allProtected := by
  unfold Slot.toBegin
  split
  · nofun
  · next h => exact h

theorem Slot.toEmpty_eq : sl.toEmpty = sl ∨ sl.state = .beginProtected ∧ sl.toEmpty = sl.emptied := by
  unfold Slot.toEmpty
  split
  · next h => exact Or.inr ⟨h, rfl⟩
  · exact Or.inl rfl

theorem Slot.toEmpty_not_protected (h : sl.state ≠ .allProtected) : ¬ sl.toEmpty.IsProtected := by
  unfold Slot.toEmpty
  split
  · simp [Slot.IsProtected, Slot.emptied]
  · next hb => exact fun hp => hp.elim h hb

/-- What an eviction of `n` kB that returns `done` has done. The state `u` is the one between its
two loops. -/
structure Reported (env : Env) (n : ℕ) (s : State) (done : Bool) (t : State) : Prop where
  iff : done = true ↔ n ≤ s.protectedkB
  enough : done = true → 1024 * n + deletedMem s.trace ≤ deletedMem t.trace
  none_left : done = false → ∀ sl ∈ t.slots, ¬ sl.IsProtected
  others : ∀ (i : ℕ) (sl : Slot), s.slots[i]? = some sl → ¬ sl.IsProtected → t.slots[i]? = some sl
  page : ∀ x, t.page env x ≠ s.page env x → ∃ sl ∈ s.slots, sl.IsProtected ∧ sl.Owns x
  gone : ∀ (i : ℕ) (sl sl' : Slot) (x : ℕ), s.slots[i]? = some sl → t.slots[i]? = some sl' →
    sl.Owns x → ¬ sl'.Owns x →
      t.page env x ≠ .readWrite ∧ ((∀ k, env.munmap k = true) → t.page env x = .unmapped)
  order : ∃ v u, reduceToBegin env n s.slots.length 0 0 s = .ok v u ∧
    (∀ (i : ℕ) (sl : Slot), s.slots[i]? = some sl → ∃ sl', u.slots[i]? = some sl' ∧ (sl' = sl ∨
      sl.state = .allProtected ∧ sl' = { sl with
        state := .beginProtected, internalSize := sl'.internalSize } ∧
      env.pageSize ∣ sl'.internalSize ∧ sl'.internalSize ≤ sl.internalSize ∧
      sl'.Owns sl'.userAddress)) ∧
    (∀ (i : ℕ) (sl : Slot), u.slots[i]? = some sl →
      t.slots[i]? = some sl ∨ sl.state = .beginProtected ∧ t.slots[i]? = some sl.emptied) ∧
    (t.slots = u.slots ∨ ∀ sl ∈ u.slots, sl.state ≠ .allProtected)

namespace Pass

/-- After the first pass over all slots none of them is `ALL_PROTECTED`. -/
theorem shrunk (h : Pass env (Slot.toBegin env) s₀.slots.length s₀ s) :
    ∀ sl ∈ s.slots, sl.state ≠ .allProtected := by
  intro v hv
  obtain ⟨j, hj⟩ := List.mem_iff_getElem?.mp hv
  obtain ⟨sl, hsl, ⟨-, rfl⟩ | ⟨hge, -⟩⟩ := h.at_slot hj
  · exact Slot.toBegin_state_ne
  · exact absurd (List.getElem?_eq_some_iff.mp hsl).1 hge

/-- After the second pass over all slots none of them is protected. -/
theorem emptied (h : Pass env Slot.toEmpty s₀.slots.length s₀ s)
    (hs : ∀ sl ∈ s₀.slots, sl.state ≠ .allProtected) : ∀ sl ∈ s.slots, ¬ sl.IsProtected := by
  intro v hv
  obtain ⟨j, hj⟩ := List.mem_iff_getElem?.mp hv
  obtain ⟨sl, hsl, ⟨-, rfl⟩ | ⟨hge, -⟩⟩ := h.at_slot hj
  · exact Slot.toEmpty_not_protected (hs sl (List.mem_of_getElem? hsl))
  · exact absurd (List.getElem?_eq_some_iff.mp hsl).1 hge

theorem booked (h : Pass env f m s₀ s) (d : ℕ) : Pass env f m s₀ (s.booked d) :=
  ⟨h.slots, h.page, h.gone, h.le, h.deleted, h.list⟩

theorem reported {u : State} {v : ℕ × Bool} {done : Bool} (hg : s.PageGranular env)
    (hrun : reduceToBegin env n s.slots.length 0 0 s = .ok v u)
    (hu : Pass env (Slot.toBegin env) i s u) (ht : Pass env Slot.toEmpty m u t)
    (horder : m = 0 ∨ ∀ sl ∈ u.slots, sl.state ≠ .allProtected)
    (hiff : done = true ↔ n ≤ s.protectedkB)
    (henough : done = true → n + t.protectedkB ≤ s.protectedkB)
    (hnone : done = false → ∀ sl ∈ t.slots, ¬ sl.IsProtected) : Reported env n s done t := by
  refine ⟨hiff, fun hd => ?_, hnone, fun j sl hj hp => ?_, fun x hx => ?_,
    fun j sl w x hj hw ho hno => ?_, v, u, hrun, fun j sl hj => ?_, fun j sl hj => ?_, ?_⟩
  · have h1 := henough hd
    have h2 := hu.deleted
    have h3 := ht.deleted
    have h4 := hu.le
    have h5 := ht.le
    omega
  · have hju : u.slots[j]? = some sl := by
      rw [hu.slots j, hj, Option.map_some, toBegin_guards sl hp, ite_self]
    rw [ht.slots j, hju, Option.map_some, toEmpty_guards sl hp, ite_self]
  · have hprot : ∀ {f : Slot → Slot} {sl : Slot}, Guards f → sl.Owns x → ¬ (f sl).Owns x →
        sl.IsProtected := fun hf ho hno => by
      by_contra hp
      exact hno ((hf _ hp).symm ▸ ho)
    by_cases hxu : u.page env x = s.page env x
    · obtain ⟨j, -, w, hw, ho, hno⟩ := ht.page x (hxu.symm ▸ hx)
      obtain ⟨sl, hsl, hp, hown, -⟩ := hu.owned hg hw (hprot toEmpty_guards ho hno)
      exact ⟨sl, List.mem_of_getElem? hsl, hp, hown x ho⟩
    · obtain ⟨j, -, sl, hsl, ho, hno⟩ := hu.page x hxu
      exact ⟨sl, List.mem_of_getElem? hsl, hprot toBegin_guards ho hno, ho⟩
  · have hlater : (u.page env x ≠ .readWrite ∧
        ((∀ k, env.munmap k = true) → u.page env x = .unmapped)) →
        t.page env x ≠ .readWrite ∧ ((∀ k, env.munmap k = true) → t.page env x = .unmapped) := by
      intro h
      by_cases hxt : t.page env x = u.page env x
      · rwa [hxt]
      · obtain ⟨k, hk, z, hz, hzo, hzn⟩ := ht.page x hxt
        exact ht.gone k hk z hz x hzo hzn
    obtain ⟨y, hy, hyw⟩ := ht.at_slot hw
    by_cases hyo : y.Owns x
    · rcases hyw with ⟨hlt, rfl⟩ | ⟨-, rfl⟩
      · exact ht.gone j hlt y hy x hyo hno
      · exact absurd hyo hno
    · obtain ⟨z, hz, hzy⟩ := hu.at_slot hy
      rw [hj] at hz
      cases hz
      rcases hzy with ⟨hlt, rfl⟩ | ⟨-, rfl⟩
      · exact hlater (hu.gone j hlt sl hj x ho hyo)
      · exact absurd ho hyo
  · rw [hu.slots j, hj, Option.map_some]
    by_cases hlt : j < i
    · rw [if_pos hlt]
      refine ⟨_, rfl, ?_⟩
      by_cases hs : sl.state = .allProtected
      · have hmem := List.mem_of_getElem? hj
        obtain ⟨h1, h2, h3⟩ := Slot.toBegin_region (hg.region sl hmem (Or.inl hs))
          (hg.user sl hmem (Or.inl hs))
        have hf : sl.toBegin env =
            { sl with state := .beginProtected, internalSize := sl.keptSize env } := if_pos hs
        rw [hf] at h1 h2 h3 ⊢
        exact Or.inr ⟨hs, rfl, h1.size_dvd, h3, h2⟩
      · exact Or.inl (if_neg hs)
    · rw [if_neg hlt]
      exact ⟨sl, rfl, Or.inl rfl⟩
  · rw [ht.slots j, hj, Option.map_some]
    split
    · rcases @Slot.toEmpty_eq sl with h | ⟨hs, h⟩
      · rw [h]
        exact Or.inl rfl
      · rw [h]
        exact Or.inr ⟨hs, rfl⟩
    · exact Or.inl rfl
  · rcases horder with rfl | h
    · refine Or.inl (List.ext_getElem? fun j => ?_)
      rw [ht.slots j, if_neg (Nat.not_lt_zero j)]
    · exact Or.inr h

end Pass

theorem State.protectedkB_eq_zero (h : ∀ sl ∈ s.slots, ¬ sl.IsProtected) : s.protectedkB = 0 :=
  State.totalkB_eq_zero fun sl hsl => by
    simpa using mt Slot.guards_iff.mp (h sl hsl)

open Classical in
theorem sum_kBIf_le {slots : List Slot} (hP : 1024 ∣ env.pageSize)
    (hr : ∀ sl ∈ slots, sl.IsProtected → sl.RegionOk env)
    (hd : slots.Pairwise fun sl sl' => ∀ x, sl.Owns x → ¬ sl'.Owns x) :
    1024 * (slots.map (Slot.kBIf Slot.guards)).sum ≤
      ((Finset.range env.taskSize).filter fun x => ∃ sl ∈ slots, sl.Owns x).card := by
  induction slots with
  | nil => exact Nat.zero_le _
  | cons sl rest ih =>
    obtain ⟨hsl, hrest⟩ := List.pairwise_cons.mp hd
    have ih := ih (fun sl' h => hr sl' (List.mem_cons_of_mem sl h)) hrest
    by_cases hp : sl.IsProtected
    · have hok := hr sl List.mem_cons_self hp
      have hle := hok.le
      have hcard : 1024 * sl.kBIf Slot.guards =
          (Finset.Ico sl.internalAddress (sl.internalAddress + sl.internalSize)).card := by
        rw [Nat.card_Ico, Slot.kBIf_guards hp, Nat.mul_comm, hok.kB_eq hP, Nat.add_sub_cancel_left]
      rw [List.map_cons, List.sum_cons, Nat.mul_add, hcard]
      refine (Nat.add_le_add_left ih _).trans ?_
      rw [← Finset.card_union_of_disjoint]
      · refine Finset.card_le_card fun x hx => ?_
        simp only [Finset.mem_union, Finset.mem_Ico, Finset.mem_filter, Finset.mem_range] at hx ⊢
        rcases hx with hx | ⟨hx, sl', hsl', ho⟩
        · exact ⟨by omega, sl, List.mem_cons_self, hx⟩
        · exact ⟨hx, sl', List.mem_cons_of_mem sl hsl', ho⟩
      · refine Finset.disjoint_left.mpr fun x hx hx' => ?_
        obtain ⟨-, sl', hsl', ho⟩ := Finset.mem_filter.mp hx'
        exact hsl sl' hsl' x (Finset.mem_Ico.mp hx) ho
    · rw [List.map_cons, List.sum_cons, Slot.kBIf_not hp, Nat.zero_add]
      refine ih.trans (Finset.card_le_card fun x hx => ?_)
      obtain ⟨hx, sl', hsl', ho⟩ := Finset.mem_filter.mp hx
      exact Finset.mem_filter.mpr ⟨hx, sl', List.mem_cons_of_mem sl hsl', ho⟩

open Classical in
theorem Core.pageGranular (h : Core env s) (hP : 1024 ∣ env.pageSize) : s.PageGranular env := by
  have hslot : ∀ sl ∈ s.slots, sl.IsProtected → sl.RegionOk env ∧ sl.Owns sl.userAddress := by
    intro sl hsl hp
    obtain ⟨i, hi⟩ := List.mem_iff_getElem?.mp hsl
    exact ⟨(h.slot hi).region hp.ne_empty, (h.slot hi).owns_of_protected hp⟩
  refine ⟨hP, fun sl hsl hp => (hslot sl hsl hp).1, fun sl hsl hp => (hslot sl hsl hp).2, ?_⟩
  have hd : s.slots.Pairwise fun sl sl' => ∀ x, sl.Owns x → ¬ sl'.Owns x := by
    refine List.pairwise_iff_getElem.mpr fun i j hi hj hlt x ho ho' => ?_
    have := h.eq_of_owns (List.getElem?_eq_getElem hi) (List.getElem?_eq_getElem hj) ho ho'
    omega
  have hsum := (sum_kBIf_le hP (fun sl hsl hp => (hslot sl hsl hp).1) hd).trans
    (Finset.card_filter_le _ _)
  rw [Finset.card_range] at hsum
  have htask := env.taskSize_le
  have heq : s.protectedkB = (s.slots.map (Slot.kBIf Slot.guards)).sum := rfl
  omega

theorem Ready.standing (h : Ready env s) : s.Standing env := by
  have howned : ∀ sl ∈ s.slots, sl.IsProtected → ∀ x, sl.Owns x → ∃ i, s.slots[i]? = some sl ∧
      s.Owns i x := by
    intro sl hsl _ x ho
    obtain ⟨i, hi⟩ := List.mem_iff_getElem?.mp hsl
    exact ⟨i, hi, h.core.owns hi ho⟩
  refine ⟨h.open, fun sl hsl hp x ho => ?_, fun sl hsl hp x ho hin => ?_,
    fun i j sl sl' x hi hj _ _ ho ho' => h.core.eq_of_owns hi hj ho ho'⟩
  · obtain ⟨i, -, hx⟩ := howned sl hsl hp x ho
    exact h.core.mapped (h.core.held_of_owns hx)
  · obtain ⟨i, hi, hx⟩ := howned sl hsl hp x ho
    obtain ⟨l, sl', hl, hL, hown⟩ := h.core.owns_list
    obtain rfl := h.core.part.unique hx (hown x hin.1 hin.2)
    rw [hi] at hl
    cases hl
    rcases hp with hp | hp <;> rw [hL.state] at hp <;> cases hp

/-- An eviction reports success if and only if the protected slots have what it is asked for, and
has given back that much then; else it has given back all of their memory. It stops only if the
slots' memory is not theirs, which it is inside the allocator. -/
theorem reduceProtectedMemory_reports (env : Env) (hn : 1 ≤ n) :
    (∀ s : State, s.PageGranular env →
      Wp (reduceProtectedMemory env n) (Reported env n s) (fun _ _ => ¬ s.Standing env) s) ∧
    (1024 ∣ env.pageSize → ∀ s : State, Ready env s → s.PageGranular env ∧ s.Standing env) := by
  refine ⟨fun s h => ?_, fun hP s h => ⟨h.core.pageGranular hP, h.standing⟩⟩
  refine Wp.bind_iff.mpr (Wp.get_iff.mpr ?_)
  have hbegin := reduceToBegin_ended h h.total (.refl _ s) (Nat.zero_add _) (Nat.zero_add _) hn
  refine Wp.seq ((hbegin.and Wp.self).mono (fun _ _ h => h) fun _ _ h => h.1) ?_
  rintro ⟨a, done⟩ u ⟨⟨i, hi, hu, ha, hend⟩, hrun⟩
  refine Wp.ite (fun hd => ?_) fun hd => ?_
  · subst hd
    have hle : n ≤ a := hend
    have := hu.le
    have hbooked := (@Pass.refl env Slot.toEmpty u).booked a
    exact hu.reported h hrun hbooked (Or.inl rfl) (by simp only [true_iff]; omega)
      (fun _ => by change n + u.protectedkB ≤ _; omega) nofun
  · obtain rfl : done = false := by simpa using hd
    obtain ⟨ha', rfl⟩ : a < n ∧ i = s.slots.length := hend
    have hempty := reduceToEmpty_ended (hu.granular h) h.total (.refl _ u)
      (show 0 + s.slots.length = u.slots.length by rw [hu.length, Nat.zero_add]) ha ha'
    refine Wp.seq (hempty.mono (fun _ _ h => h) fun _ _ hno hst => hno (hu.standing h hst)) ?_
    rintro ⟨b, done⟩ t ⟨m, hm, ht, hb, hend⟩
    refine Wp.ite (fun hd => ?_) fun hd => ?_
    · subst hd
      have hle : n ≤ b := hend
      exact hu.reported h hrun (ht.booked b) (Or.inr hu.shrunk) (by simp only [true_iff]; omega)
        (fun _ => by change n + t.protectedkB ≤ _; omega) nofun
    · obtain rfl : done = false := by simpa using hd
      obtain ⟨hb', rfl⟩ : b < n ∧ m = u.slots.length := hend
      have hnone := ht.emptied hu.shrunk
      have hzero := State.protectedkB_eq_zero hnone
      have hlogged : Pass env Slot.toEmpty u.slots.length u (t.log (.shortfall b)) :=
        ⟨ht.slots, ht.page, ht.gone, ht.le, ht.deleted, ht.list⟩
      exact hu.reported h hrun hlogged (Or.inr hu.shrunk)
        (by simp only [Bool.false_eq_true, false_iff]; omega) nofun fun _ => hnone

/-- A freed block of one byte with two pages, the second of which goes first. -/
def freedSlot (address : ℕ) : Slot :=
  { Slot.zero with
    internalAddress := address, internalSize := 2048, userAddress := address + 1023, userSize := 1
    protAddress := address + 1024, state := .allProtected, allocator := .malloc }

def freedState : State :=
  { ((State.pristine Env.sample).created Env.sample (2 ^ 24) 2048).created Env.sample (2 ^ 25) 2048
    with slots := [freedSlot (2 ^ 24), Slot.zero, freedSlot (2 ^ 25)] }

theorem reduceProtectedMemory_reports_freed : ∃ t,
    reduceProtectedMemory Env.sample 3 freedState = .ok true t ∧ Reported Env.sample 3 freedState true
      t := by
  have hslot : ∀ sl ∈ freedState.slots, sl.IsProtected → sl = freedSlot (2 ^ 24) ∨
      sl = freedSlot (2 ^ 25) := by
    intro sl hsl hp
    simp only [freedState, List.mem_cons, List.not_mem_nil, or_false] at hsl
    rcases hsl with rfl | rfl | rfl
    · exact Or.inl rfl
    · rcases hp with hp | hp <;> cases hp
    · exact Or.inr rfl
  have hgran : freedState.PageGranular Env.sample := by
    refine ⟨by decide, fun sl hsl hp => ?_, fun sl hsl hp => ?_, by decide⟩
    · rcases hslot sl hsl hp with rfl | rfl
      · exact ⟨by decide, by decide, by decide, by decide, by decide⟩
      · exact ⟨by decide, by decide, by decide, by decide, by decide⟩
    · rcases hslot sl hsl hp with rfl | rfl
      · exact ⟨by decide, by decide⟩
      · exact ⟨by decide, by decide⟩
  have hrun : (match reduceProtectedMemory Env.sample 3 freedState with
      | .ok done _ => done
      | .error _ _ => false) = true := by decide +kernel
  split at hrun
  · next done t he =>
    subst hrun
    exact ⟨t, he, ((reduceProtectedMemory_reports Env.sample (by decide : 1 ≤ 3)).1 freedState
      hgran).returns he⟩
  · cases hrun

end Report

section Retry

/-- One round of the loop: an eviction of `k` kB and another attempt to create `size` bytes. -/
def Round (env : Env) (k size : ℕ) (s : State) (more : Bool) (a : ℕ) (t : State) : Prop :=
  ∃ u, reduceProtectedMemory env k s = .ok more u ∧ pageCreate env size false u = .ok a t

/-- The first `m` rounds of the loop, none of which ends it. -/
inductive Rounds (env : Env) (k size : ℕ) : ℕ → State → State → Prop
  | zero {s : State} : Rounds env k size 0 s s
  | succ {m : ℕ} {s t u : State} (h : Round env k size s true 0 t) (hr : Rounds env k size m t u) :
      Rounds env k size (m + 1) s u

/-- The program stops for other reasons than the bound on the rounds, if at all. -/
abbrev Fueled (p : M α) (s : State) : Prop := Wp p (fun _ _ => True) (fun e _ => e ≠ .outOfFuel) s

theorem Fueled.bind {p : M α} {f : α → M β} (hp : Fueled p s) (hf : ∀ v t, Fueled (f v) t) :
    Fueled (p >>= f) s :=
  Wp.seq hp fun v t _ => hf v t

theorem Fueled.ite {c : Prop} [Decidable c] {p q : M α} (hp : Fueled p s) (hq : Fueled q s) :
    Fueled (if c then p else q) s :=
  Wp.ite (fun _ => hp) fun _ => hq

theorem readSlot_fueled : Fueled (readSlot env i) s := by
  refine Wp.seq (R := fun _ _ => True) ?_ fun l t _ => ?_
  · exact Wp.bind_iff.mpr (Wp.get_iff.mpr (Wp.bind_iff.mpr (touch_wp (fun _ => trivial) fun _ =>
      nofun)))
  · split
    · exact trivial
    · exact Wp.bind_iff.mpr (Wp.get_iff.mpr nofun)

theorem modifySlot_fueled {f : Slot → Slot} : Fueled (modifySlot env i f) s :=
  readSlot_fueled.bind fun _ _ => trivial

theorem pageCreate_fueled {b : Bool} : Fueled (pageCreate env size b) s :=
  pageCreate_wp (fun _ _ _ _ => trivial) (fun _ _ => trivial) nofun

theorem pageDelete_fueled {n : ℕ} : Fueled (pageDelete env a n) s :=
  pageDelete_wp (fun _ _ => trivial) fun _ => nofun

theorem reduceToBegin_fueled : Fueled (reduceToBegin env k count i a) s := by
  induction count generalizing s i a with
  | zero => exact trivial
  | succ count ih =>
    refine Fueled.ite trivial (readSlot_fueled.bind fun sl t => Fueled.ite ?_ ih)
    exact pageDelete_fueled.bind fun _ _ => modifySlot_fueled.bind fun _ _ => Fueled.ite trivial ih

theorem reduceToEmpty_fueled : Fueled (reduceToEmpty env k count i a) s := by
  induction count generalizing s i a with
  | zero => exact trivial
  | succ count ih =>
    refine Fueled.ite trivial (readSlot_fueled.bind fun sl t => Fueled.ite ?_ ih)
    exact pageDelete_fueled.bind fun _ _ => modifySlot_fueled.bind fun _ _ => Fueled.ite trivial ih

theorem reduceProtectedMemory_fueled : Fueled (reduceProtectedMemory env k) s := by
  refine Wp.bind_iff.mpr (Wp.get_iff.mpr (reduceToBegin_fueled.bind fun v t => ?_))
  exact Fueled.ite trivial (reduceToEmpty_fueled.bind fun v t => Fueled.ite trivial trivial)

theorem Round.evictable (hk : k ≤ 2 ^ 54) (h : Round env k size s more a t) :
    t.evictable + (if more then 1 else 0) ≤ s.evictable := by
  obtain ⟨u, hr, hc⟩ := h
  have hwp : Ensures env (fun _ => False) (reduceProtectedMemory env k) _ (fun _ => True) s :=
    reduceProtectedMemory_ensures hk
  have h₁ := (hwp.returns hr).2
  have h₂ : t.evictable = u.evictable := by
    have : Wp (pageCreate env size false) (fun _ t => t.evictable = u.evictable) (fun _ _ => True)
        u := pageCreate_wp (fun _ _ _ _ => State.evictable_congr rfl)
      (fun _ _ => State.evictable_congr rfl) fun _ _ => trivial
    exact this.returns hc
  rwa [h₂]

/-- Every round that does not end the loop takes a step of a protected slot towards `EMPTY`. -/
theorem Rounds.evictable (hk : k ≤ 2 ^ 54) (h : Rounds env k size m s t) :
    t.evictable + m ≤ s.evictable := by
  induction h with
  | zero => exact le_rfl
  | succ hr _ ih =>
    have := hr.evictable hk
    simp only [if_true] at this
    omega

theorem Round.mapped (h : Round env k size s more a t) (h0 : a ≠ 0) :
    ∀ x, a ≤ x → x < a + size → t.page env x = .readWrite := by
  obtain ⟨u, -, hc⟩ := h
  have : Wp (pageCreate env size false)
      (fun a t => a ≠ 0 → ∀ x, a ≤ x → x < a + size → t.page env x = .readWrite)
      (fun _ _ => True) u := by
    refine pageCreate_wp (fun b _ hg _ _ x h1 h2 => ?_) (fun _ _ h => absurd rfl h) fun _ _ => trivial
    have := env.le_roundUp size
    rw [State.created_page hg.dvd, if_pos ⟨h1, by omega⟩]
  exact this.returns hc h0

theorem retryCreate_rounds (hk : k ≤ 2 ^ 54) (hf : s.evictable < fuel) :
    Wp (retryCreate env k size fuel)
      (fun a t => ∃ m u more, Rounds env k size m s u ∧ Round env k size u more a t ∧
        (a ≠ 0 ∨ more = false)) (fun e _ => e ≠ .outOfFuel) s := by
  induction fuel generalizing s with
  | zero => omega
  | succ fuel ih =>
    refine Wp.seq (reduceProtectedMemory_fueled.and Wp.self |>.mono (fun _ _ h => h.2)
      fun _ _ h => h.1) fun more u hu => ?_
    refine Wp.seq (R := fun a t => pageCreate env size false u = .ok a t)
      (Wp.intro (fun _ _ h => h) fun e v h => ?_) fun a t ht => ?_
    · exact pageCreate_fueled.stops h
    have hround : Round env k size s more a t := ⟨u, hu, ht⟩
    refine Wp.ite (fun h => ?_) fun h => ⟨0, s, more, .zero, hround, ?_⟩
    · obtain ⟨rfl, h0⟩ := Bool.and_eq_true_iff.mp h
      obtain rfl : a = 0 := by simpa using h0
      have hle := hround.evictable hk
      simp only [if_true] at hle
      refine (ih (by omega)).post ?_
      rintro b v ⟨m, w, more, hm, hw, hb⟩
      exact ⟨m + 1, w, more, .succ hround hm, hw, hb⟩
    · cases more with
      | false => exact Or.inr rfl
      | true => exact Or.inl fun h0 => h (by simp [h0])

/-- The bound that stands for the absence of one in the source is never reached. -/
theorem createChunk_fueled {r : Request} : Fueled (createChunk env k r) s := by
  have rest : ∀ (a : ℕ) (t : State), Fueled (do
      let s ← get
      if a = 0 ∧ s.cfg.protectFree ≠ 0 then
        let address ← retryCreate env (kB k) (Word.mul k (numChunksFor k r.userSize))
          (2 * s.slots.length + 1)
        if address = 0 ∧ r.fail = .failEnv then
          pageCreate env (Word.mul k (numChunksFor k r.userSize)) s.cfg.mallocFailexit
        else pure address
      else pure a : M ℕ) t := by
    refine fun a t => Wp.bind_iff.mpr (Wp.get_iff.mpr (Fueled.ite ?_ trivial))
    have hloop := @retryCreate_rounds env t _ (Word.mul k (numChunksFor k r.userSize)) _ (kB_le k).le
      (Nat.lt_succ_of_le t.evictable_le)
    exact Fueled.bind (hloop.post fun _ _ _ => trivial) fun _ _ => Fueled.ite pageCreate_fueled trivial
  unfold createChunk createChunkBy
  dsimp only
  split
  · exact rest 0 s
  · exact pageCreate_fueled.bind rest

/-- The loop that gives up protected memory and asks again ends: with the pages it asked for, or
behind an eviction that found too little. -/
theorem retryCreate_ends (env : Env) (s : State) (chunkSize size : ℕ) :
    (∀ m t, Rounds env (kB chunkSize) size m s t →
      m ≤ 2 * s.count .allProtected + s.count .beginProtected) ∧
    (∀ fuel, 2 * s.count .allProtected + s.count .beginProtected < fuel →
      Wp (retryCreate env (kB chunkSize) size fuel)
        (fun a t => ∃ m u more, m + 1 ≤ 2 * s.count .allProtected + s.count .beginProtected + 1 ∧
          Rounds env (kB chunkSize) size m s u ∧ Round env (kB chunkSize) size u more a t ∧
          (a ≠ 0 ∧ (∀ x, a ≤ x → x < a + size → t.page env x = .readWrite) ∨ more = false))
        (fun e _ => e ≠ .outOfFuel) s) ∧
    ∀ r, Wp (createChunk env chunkSize r) (fun _ _ => True) (fun e _ => e ≠ .outOfFuel) s := by
  have hk : kB chunkSize ≤ 2 ^ 54 := (kB_le _).le
  have hbound : ∀ m t, Rounds env (kB chunkSize) size m s t → m ≤ s.evictable := fun m t h => by
    have := h.evictable hk
    omega
  refine ⟨hbound, fun fuel hf => (retryCreate_rounds hk hf).post ?_, fun r => createChunk_fueled⟩
  rintro a t ⟨m, u, more, hm, hr, hend⟩
  refine ⟨m, u, more, Nat.succ_le_succ (hbound m u hm), hm, hr, ?_⟩
  rcases hend with h0 | hmore
  · exact Or.inl ⟨h0, hr.mapped h0⟩
  · exact Or.inr hmore

end Retry

end Duma

import Duma.Refine.Primitives
import Duma.Region.Totals

/-! # Eviction of protected memory

`reduceProtectedMemory` shrinks and drops protected slots and leaves all others alone. Each of its
successes uses up some of the protected memory, which bounds the loop that retries.
-/

namespace Duma

variable {env : Env} {ok : ℕ → Prop} {s s' s'' : State} {i k n : ℕ} {sl new : Slot} {A : Stop → Prop}

/-- A change of the counters alone or an eviction. -/
inductive Cede (env : Env) (s : State) : State → Prop
  | quiet (b : Book) (hb : Quiet s b) : Cede env s { s with book := b }
  | sweep {t : State} (h : Sweep env s t) : Cede env s t

abbrev Cedes (env : Env) : State → State → Prop := Relation.ReflTransGen (Cede env)

theorem Cede.base (h : Cede env s s') : Base env ok s s' := by
  rcases h with ⟨b, hb⟩ | h
  exacts [.quiet b hb, .sweep h]

theorem Cedes.bases (h : Cedes env s s') : Bases env ok s s' :=
  Relation.ReflTransGen.mono (fun _ _ => Cede.base) _ _ h

theorem Cedes.inners (h : Cedes env s s') : Inners env ok s s' := h.bases.inners

theorem Evict.slot (h : Evict env s s') (hi : s.slots[i]? = some sl) (hs : ¬ sl.IsProtected) :
    s'.slots[i]? = some sl := by
  have put : ∀ {t : State} {j : ℕ} {old new : Slot}, t.slots[i]? = some sl →
      t.slots[j]? = some old → old.IsProtected → (t.putSlot j new).slots[i]? = some sl := by
    intro t j old new hi hj ho
    rw [State.getElem?_putSlot hj, if_neg, hi]
    rintro rfl
    rw [hi] at hj
    cases hj
    exact hs ho
  cases h with
  | quiet => exact hi
  | shrink hj hs hp => exact put (t := State.deleted _ _ _ _ _) hi hj (Or.inl hs)
  | drop hj hs hp => exact put (t := State.deleted _ _ _ _ _) hi hj (Or.inr hs)

theorem Evicts.slot (h : Evicts env s s') (hi : s.slots[i]? = some sl) (hs : ¬ sl.IsProtected) :
    s'.slots[i]? = some sl := by
  induction h with
  | refl => exact hi
  | tail _ he ih => exact he.slot ih hs

/-- The slots after an eviction are those at the end of its loops. -/
theorem Sweep.evicts (h : Sweep env s s') : ∃ t, Evicts env s t ∧ s'.slots = t.slots := by
  cases h with
  | full he => exact ⟨_, he, rfl⟩
  | short he => exact ⟨_, he, rfl⟩

theorem Cedes.slot (h : Cedes env s s') (hi : s.slots[i]? = some sl) (hs : ¬ sl.IsProtected) :
    s'.slots[i]? = some sl := by
  induction h with
  | refl => exact hi
  | tail _ hc ih =>
    cases hc with
    | quiet => exact ih
    | sweep hw =>
      obtain ⟨t, he, ht⟩ := hw.evicts
      exact ht ▸ Evicts.slot he ih hs

theorem Evicts.length (h : Evicts env s s') : s'.slots.length = s.slots.length := by
  induction h with
  | refl => rfl
  | tail _ he ih =>
    rw [← ih]
    cases he with
    | quiet => rfl
    | shrink => rw [State.shrunk, State.putSlot_slots, List.length_set]; rfl
    | drop => rw [State.dropped, State.putSlot_slots, List.length_set]; rfl

section Evictable

/-- The number of successful evictions that the slots allow. -/
def State.evictable (s : State) : ℕ := 2 * s.count .allProtected + s.count .beginProtected

theorem State.evictable_le (s : State) : s.evictable ≤ 2 * s.slots.length := by
  unfold State.evictable State.count
  induction s.slots with
  | nil => rfl
  | cons sl rest ih =>
    simp only [List.countP_cons, List.length_cons, beq_iff_eq]
    cases sl.state <;> simp <;> omega

theorem State.evictable_congr (h : s'.slots = s.slots) : s'.evictable = s.evictable := by
  simp only [State.evictable, State.count_congr h]

theorem State.evictable_shrunk {p : Page} (hi : s.slots[i]? = some sl)
    (hs : sl.state = .allProtected) :
    (s.shrunk env i sl p).evictable + 1 = s.evictable := by
  have h := fun st => State.count_putSlot (s := s.deleted env (Word.add sl.internalAddress
    (sl.keptSize env)) (Word.sub sl.internalSize (sl.keptSize env)) p) (i := i)
    (v := { sl with state := .beginProtected, internalSize := sl.keptSize env }) hi st
  have h1 := h .allProtected
  have h2 := h .beginProtected
  have hc : ∀ st, (s.deleted env (Word.add sl.internalAddress (sl.keptSize env))
    (Word.sub sl.internalSize (sl.keptSize env)) p).count st = s.count st := fun _ => rfl
  simp only [hs, hc, if_true, reduceCtorEq, if_false] at h1 h2
  simp only [State.evictable, State.shrunk]
  omega

theorem State.evictable_dropped {p : Page} (hi : s.slots[i]? = some sl)
    (hs : sl.state = .beginProtected) :
    (s.dropped env i sl p).evictable + 1 = s.evictable := by
  have h := fun st => State.count_putSlot (s := s.deleted env sl.internalAddress sl.internalSize p)
    (i := i) (v := sl.emptied) hi st
  have h1 := h .allProtected
  have h2 := h .beginProtected
  have hc : ∀ st, (s.deleted env sl.internalAddress sl.internalSize p).count st = s.count st :=
    fun _ => rfl
  simp only [hs, hc, Slot.emptied, if_true, reduceCtorEq, if_false] at h1 h2
  simp only [State.evictable, State.dropped, Slot.emptied]
  omega

theorem Evicts.evictable_le (h : Evicts env s s') : s'.evictable ≤ s.evictable := by
  induction h with
  | refl => exact le_rfl
  | tail _ he ih =>
    refine le_trans ?_ ih
    cases he with
    | quiet => exact le_rfl
    | shrink hi hs => exact Nat.le_of_succ_le (State.evictable_shrunk hi hs).le
    | drop hi hs => exact Nat.le_of_succ_le (State.evictable_dropped hi hs).le

theorem Cedes.evictable_le (h : Cedes env s s') : s'.evictable ≤ s.evictable := by
  induction h with
  | refl => exact le_rfl
  | tail _ hc ih =>
    refine le_trans ?_ ih
    cases hc with
    | quiet => exact le_rfl
    | sweep hw =>
      obtain ⟨t, he, ht⟩ := hw.evicts
      exact State.evictable_congr ht ▸ Evicts.evictable_le he

end Evictable

section Loops

theorem Evict.afterMunmap (s : State) : Evict env s s.afterMunmap :=
  .quiet { s.book with munmapCalls := s.book.munmapCalls + 1 } ⟨rfl, rfl, rfl, rfl⟩

/-- Loops that shrink and drop slots keep the invariants. -/
theorem Pre.evicts (h : Pre env ok s) (he : Evicts env s s') : Pre env ok s' :=
  ⟨h.whole, Evicts.core h.ready.core he, Evicts.open h.ready.core he h.ready.open,
    (Evicts.keeps h.ready.core he).live h.ready.core h.ready.live⟩

theorem Ensures.from_evicts {α : Type} {m : M α} {Q : α → State → Prop} (he : Evicts env s s')
    (h : Ensures env ok m Q A s') : Wp m Q (fun e _ => Pre env ok s → A e) s' :=
  Wp.mono h (fun _ _ => id) fun _ _ ha hp => ha (hp.evicts he)

theorem Ensures.evict_bind {f : Slot → Slot} {a n : ℕ} {β : Type} {g : Unit → M β}
    {T : β → State → Prop} (hi : s.slots[i]? = some sl)
    (hm : Pre env ok s → MprotectOk env s a n)
    (he : ∀ p, p ≠ .readWrite → Evict env s.afterMunmap
      ((s.afterMunmap.deleted env a n p).putSlot i (f sl)))
    (hg : ∀ p, Evicts env s ((s.afterMunmap.deleted env a n p).putSlot i (f sl)) →
      Ensures env ok (g ()) T A ((s.afterMunmap.deleted env a n p).putSlot i (f sl))) :
    Ensures env ok (pageDelete env a n >>= fun _ => modifySlot env i f >>= g) T A s := by
  refine Ensures.pageDelete_bind hm fun p hp => ?_
  have hev : Evicts env s ((s.afterMunmap.deleted env a n p).putSlot i (f sl)) :=
    .tail (.single (Evict.afterMunmap s)) (he p hp)
  refine Wp.bind_iff.mpr (modifySlot_wp (s := s.afterMunmap.deleted env a n p) hi ?_ ?_)
  · exact Ensures.from_evicts hev (hg p hev)
  · intro hO hpre
    refine absurd (fun x h1 h2 => ?_) hO
    have := (hpre.evicts hev).ready.open x (by simpa using h1) (by simpa using h2)
    rwa [State.putSlot_page] at this

/-- What one of the two loops, which starts at slot `i` with `a` kB released, has done when it ends
with `v`: the rest of the slots in state `st` has been through it if it was not enough. -/
structure Reduced (env : Env) (k i a : ℕ) (st : SlotState) (s : State) (v : ℕ × Bool) (t : State) :
    Prop where
  evicts : Evicts env s t
  released : 1024 ∣ env.pageSize → Core env s → t.protectedkB + v.1 = s.protectedkB + a
  evictable : t.evictable + (if v.2 then 1 else 0) ≤ s.evictable
  below : ∀ j, j < i → t.slots[j]? = s.slots[j]?
  short : v.2 = false → v.1 < k ∧ ∀ (j : ℕ) (sl : Slot), i ≤ j → t.slots[j]? = some sl →
    sl.state ≠ st

namespace Reduced

variable {a a' d : ℕ} {st : SlotState} {v : ℕ × Bool}

theorem done (h : a < k) (hi : s.slots.length ≤ i) : Reduced env k i a st s (a, false) s := by
  refine ⟨.refl, fun _ _ => rfl, by simp, fun _ _ => rfl, fun _ => ⟨h, fun j sl hj hs => ?_⟩⟩
  rw [List.getElem?_eq_none (by omega)] at hs
  cases hs

theorem skip (hs : s.slots[i]? = some sl) (hne : sl.state ≠ st)
    (h : Reduced env k (i + 1) a st s v s') : Reduced env k i a st s v s' := by
  refine ⟨h.evicts, h.released, h.evictable, fun j hj => h.below j (by omega), fun hv =>
    ⟨(h.short hv).1, fun j sl' hj hs' => ?_⟩⟩
  rcases Nat.eq_or_lt_of_le hj with rfl | hlt
  · rw [h.below i (by omega), hs] at hs'
    cases hs'
    exact hne
  · exact (h.short hv).2 j sl' hlt hs'

theorem stop (h : Evicts env s s') (hlt : s'.evictable + 1 = s.evictable)
    (hr : 1024 ∣ env.pageSize → Core env s → s'.protectedkB + a' = s.protectedkB + a)
    (hbelow : ∀ j, j < i → s'.slots[j]? = s.slots[j]?) :
    Reduced env k i a st s (a', true) s' :=
  ⟨h, hr, hlt.le, hbelow, nofun⟩

theorem step (h : Evicts env s s') (hlt : s'.evictable + 1 = s.evictable)
    (hr : 1024 ∣ env.pageSize → Core env s → s'.protectedkB + a' = s.protectedkB + a)
    (hbelow : ∀ j, j < i → s'.slots[j]? = s.slots[j]?) (hi : s'.slots[i]? = some new)
    (hne : new.state ≠ st) (h' : Reduced env k (i + 1) a' st s' v s'') :
    Reduced env k i a st s v s'' := by
  have h' := h'.skip hi hne
  refine ⟨h.trans h'.evicts, fun hP hc => ?_, ?_, fun j hj => ?_, h'.short⟩
  · have h1 := hr hP hc
    have h2 := h'.released hP (Evicts.core hc h)
    omega
  · have := h'.evictable
    omega
  · rw [h'.below j hj, hbelow j hj]

end Reduced

theorem add_kB {a : ℕ} (ha : a < k) (hk : k ≤ 2 ^ 54) (n : ℕ) : Word.add a (kB n) = a + kB n := by
  have := kB_le n
  exact Word.add_eq (by omega)

theorem reduceToBegin_ensures (hk : k ≤ 2 ^ 54) (count i a : ℕ) (ha : a < k)
    (hi : i + count = s.slots.length) : Ensures env ok (reduceToBegin env k count i a)
      (Reduced env k i a .allProtected s) A s := by
  induction count generalizing s i a with
  | zero => exact .done ha (by omega)
  | succ count ih =>
    refine Ensures.ite (fun h => absurd h (by omega)) fun _ => ?_
    obtain ⟨sl, hsl⟩ : ∃ sl, s.slots[i]? = some sl :=
      ⟨s.slots[i], List.getElem?_eq_getElem (by omega)⟩
    refine (readSlot_ensures hsl).bind_same fun v hv => ?_
    subst hv
    refine Ensures.ite (fun hs => ?_) fun hs => (ih (i + 1) a ha (by omega)).post fun _ _ h =>
      h.skip hsl hs
    refine Ensures.evict_bind hsl (fun hp => ?_) (fun p hp => .shrink hsl hs hp) fun p ht => ?_
    · have hr := (hp.ready.core.slot hsl).region (by rw [hs]; nofun)
      have hu := (hp.ready.core.slot hsl).owns_of_protected (Or.inl hs)
      obtain ⟨h1, h2, h3⟩ := Slot.keptSize_spec hr hu
      obtain ⟨hw1, hw2⟩ := Slot.kept_word hr hu
      rw [hw1, hw2]
      exact hp.ready.core.mprotectOk hsl (by rw [hs]; nofun) (Nat.dvd_add hr.dvd h1)
        (Nat.dvd_sub hr.size_dvd h1) (by omega) (by omega)
    · have hlt := @State.evictable_shrunk env s.afterMunmap i v p hsl hs
      have hslot := fun j => State.getElem?_putSlot (s := s.afterMunmap.deleted env
        (Word.add v.internalAddress (v.keptSize env)) (Word.sub v.internalSize (v.keptSize env)) p)
        (j := j) (v := { v with state := .beginProtected, internalSize := v.keptSize env }) hsl
      have hrel : 1024 ∣ env.pageSize → Core env s → _ := fun hP (hc : Core env s) =>
        State.protectedkB_shrunk (p := p) hP (s := s.afterMunmap) hc.of_book hsl (Or.inl hs)
      rw [add_kB ha hk]
      have hbelow : ∀ j, j < i → (s.afterMunmap.shrunk env i v p).slots[j]? = s.slots[j]? :=
        fun j hj => (hslot j).trans (if_neg (by omega))
      have hrel' : 1024 ∣ env.pageSize → Core env s → (s.afterMunmap.shrunk env i v p).protectedkB +
          (a + kB (Word.sub v.internalSize (v.keptSize env))) = s.protectedkB + a := fun hP hc => by
        have h1 := hrel hP hc
        have h2 : s.afterMunmap.protectedkB = s.protectedkB := rfl
        omega
      refine Ensures.ite (fun _ => Reduced.stop ht hlt hrel' hbelow) fun hk' => ?_
      refine (ih (i + 1) _ (by omega) ?_).post fun v t h => h.step ht hlt hrel' hbelow
        ((hslot i).trans (if_pos rfl)) (by simp)
      rw [Evicts.length ht]
      omega

theorem reduceToEmpty_ensures (hk : k ≤ 2 ^ 54) (count i a : ℕ) (ha : a < k)
    (hi : i + count = s.slots.length) : Ensures env ok (reduceToEmpty env k count i a)
      (Reduced env k i a .beginProtected s) A s := by
  induction count generalizing s i a with
  | zero => exact .done ha (by omega)
  | succ count ih =>
    refine Ensures.ite (fun h => absurd h (by omega)) fun _ => ?_
    obtain ⟨sl, hsl⟩ : ∃ sl, s.slots[i]? = some sl :=
      ⟨s.slots[i], List.getElem?_eq_getElem (by omega)⟩
    refine (readSlot_ensures hsl).bind_same fun v hv => ?_
    subst hv
    refine Ensures.ite (fun hs => ?_) fun hs => (ih (i + 1) a ha (by omega)).post fun _ _ h =>
      h.skip hsl hs
    refine Ensures.evict_bind hsl (fun hp => ?_) (fun p hp => .drop hsl hs hp) fun p ht => ?_
    · have hr := (hp.ready.core.slot hsl).region (by rw [hs]; nofun)
      exact hp.ready.core.mprotectOk hsl (by rw [hs]; nofun) hr.dvd hr.size_dvd le_rfl le_rfl
    · have hlt := @State.evictable_dropped env s.afterMunmap i v p hsl hs
      have hslot := fun j => State.getElem?_putSlot (s := s.afterMunmap.deleted env
        v.internalAddress v.internalSize p) (j := j) (v := v.emptied) hsl
      rw [add_kB ha hk]
      have hbelow : ∀ j, j < i → (s.afterMunmap.dropped env i v p).slots[j]? = s.slots[j]? :=
        fun j hj => (hslot j).trans (if_neg (by omega))
      have hrel : 1024 ∣ env.pageSize → Core env s → (s.afterMunmap.dropped env i v p).protectedkB +
          (a + kB v.internalSize) = s.protectedkB + a := fun _ _ => by
        have h1 := @State.protectedkB_dropped env s.afterMunmap i v p hsl (Or.inr hs)
        have h2 : s.afterMunmap.protectedkB = s.protectedkB := rfl
        omega
      refine Ensures.ite (fun _ => Reduced.stop ht hlt hrel hbelow) fun hk' => ?_
      refine (ih (i + 1) _ (by omega) ?_).post fun v t h => h.step ht hlt hrel hbelow
        ((hslot i).trans (if_pos rfl)) (by simp [Slot.emptied])
      rw [Evicts.length ht]
      omega

/-- Evictions make no slot `ALL_PROTECTED`. -/
theorem Evict.count_le (h : Evict env s s') : s'.count .allProtected ≤ s.count .allProtected := by
  cases h with
  | quiet => exact le_rfl
  | @shrink i sl p hi hs =>
    have h := State.count_putSlot (s := s.deleted env (Word.add sl.internalAddress
      (sl.keptSize env)) (Word.sub sl.internalSize (sl.keptSize env)) p)
      (v := { sl with state := .beginProtected, internalSize := sl.keptSize env }) hi .allProtected
    exact (Nat.le_add_right _ _).trans h.le
  | @drop i sl p hi hs =>
    have h := State.count_putSlot (s := s.deleted env sl.internalAddress sl.internalSize p)
      (v := sl.emptied) hi .allProtected
    exact (Nat.le_add_right _ _).trans h.le

theorem Evicts.count_le (h : Evicts env s s') : s'.count .allProtected ≤ s.count .allProtected := by
  induction h with
  | refl => exact le_rfl
  | tail _ he ih => exact he.count_le.trans ih

theorem reduce_zero (count : ℕ) : reduceToBegin env 0 count 0 0 s = .ok (0, false) s ∧
    reduceToEmpty env 0 count 0 0 s = .ok (0, false) s := by
  cases count <;> exact ⟨rfl, rfl⟩

theorem reduceProtectedMemory_ensures (hk : k ≤ 2 ^ 54) :
    Ensures env ok (reduceProtectedMemory env k)
      (fun done t => Sweep env s t ∧ t.evictable + (if done then 1 else 0) ≤ s.evictable) A s := by
  refine Ensures.get_bind ?_
  rcases Nat.eq_zero_or_pos k with rfl | h0
  · obtain ⟨h1, h2⟩ := @reduce_zero env s s.slots.length
    refine Wp.seq (R := fun v t => v = (0, false) ∧ t = s) (by rw [Wp, h1]; exact ⟨rfl, rfl⟩) ?_
    rintro _ t ⟨rfl, rfl⟩
    refine Wp.seq (R := fun v u => v = (0, false) ∧ u = t) (by rw [Wp, h2]; exact ⟨rfl, rfl⟩) ?_
    rintro _ u ⟨rfl, rfl⟩
    exact ⟨.short (d := 0) .refl (fun _ _ => rfl) (Or.inl rfl), le_of_eq (State.evictable_congr rfl)⟩
  refine Wp.seq (reduceToBegin_ensures hk _ 0 0 h0 (by omega)) ?_
  rintro ⟨a, done⟩ t ht
  refine Wp.ite (fun hd => ?_) fun hd => ?_
  · subst hd
    refine ⟨.full ht.evicts fun hP hc => ?_, ht.evictable⟩
    simpa using ht.released hP hc
  have hd : done = false := by simpa using hd
  subst hd
  obtain ⟨ha, hall⟩ := ht.short rfl
  refine Wp.seq (Ensures.from_evicts ht.evicts (reduceToEmpty_ensures hk _ 0 a ha
    (by rw [Evicts.length ht.evicts]; omega))) ?_
  rintro ⟨a', done'⟩ u hu
  have hev := ht.evicts.trans hu.evicts
  have hrel : Released env s u a' := fun hP hc => by
    have h1 := ht.released hP hc
    have h2 := hu.released hP (Evicts.core hc ht.evicts)
    simp only at h1 h2
    omega
  have hle := ht.evictable
  have hle' := hu.evictable
  refine Wp.ite (fun hd => ?_) fun hd => ?_
  · subst hd
    refine ⟨.full hev hrel, ?_⟩
    have hsame : (u.booked a').evictable = u.evictable := State.evictable_congr rfl
    change (u.booked a').evictable + _ ≤ _
    simp only [Bool.false_eq_true, if_false, if_true] at hle hle' ⊢
    omega
  have hd : done' = false := by simpa using hd
  subst hd
  refine ⟨.short hev hrel (Or.inr ?_), ?_⟩
  · have hall' : t.count .allProtected = 0 := State.count_eq_zero.mpr fun sl hsl => by
      obtain ⟨j, hj⟩ := List.mem_iff_getElem?.mp hsl
      exact hall j sl (Nat.zero_le j) hj
    intro sl hsl hp
    obtain ⟨j, hj⟩ := List.mem_iff_getElem?.mp hsl
    rcases hp with hp | hp
    · exact State.count_eq_zero.mp (Nat.le_zero.mp (hall' ▸ Evicts.count_le hu.evicts)) sl hsl hp
    · exact (hu.short rfl).2 j sl (Nat.zero_le j) hj hp
  · have hsame : (u.log (.shortfall a')).evictable = u.evictable := State.evictable_congr rfl
    change (u.log (.shortfall a')).evictable + _ ≤ _
    simp only [Bool.false_eq_true, if_false] at hle hle' ⊢
    omega

end Loops

end Duma

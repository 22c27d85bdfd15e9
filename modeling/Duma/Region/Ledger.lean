import Duma.Region.Act
import Duma.Region.Totals

/-! # The counters

How far the counters of memory and of unused slots are from what they count. An eviction that fails
leaves what it released on the counters of memory, and no eviction counts the slots it empties.
-/

namespace Duma

variable {env : Env} {ok : ℕ → Prop} {s t u : State} {i n al : ℕ} {sl new : Slot} {r : Request}
  {l : Layout} {site : Site}

section Trace

/-- The kB that failed evictions released. -/
def shortfalls : List Event → ℕ
  | [] => 0
  | .shortfall sizekB :: t => sizekB + shortfalls t
  | _ :: t => shortfalls t

/-- The number of slots that evictions have emptied. -/
def drops : List Event → ℕ
  | [] => 0
  | .state _ .beginProtected .empty :: t => drops t + 1
  | _ :: t => drops t

theorem shortfalls_putSlot : shortfalls (s.putSlot i new).trace = shortfalls s.trace := by
  unfold State.putSlot
  cases s.slots[i]? with
  | none => rfl
  | some old =>
    simp only
    split <;> rfl

theorem drops_putSlot (hi : s.slots[i]? = some sl) : drops (s.putSlot i new).trace =
    drops s.trace + if sl.state = .beginProtected ∧ new.state = .empty then 1 else 0 := by
  rw [State.putSlot_trace hi]
  cases sl.state <;> cases new.state <;> rfl

theorem State.took_trace :
    (s.took env i sl n r l).trace = (s.putSlot i (sl.handed env s l r)).trace := by
  rw [State.took, State.slacked_eq, State.placed_eq, State.putSlot, State.putSlot]
  cases s.slots[i]? with
  | none => rfl
  | some old =>
    simp only
    split <;> rfl

end Trace

theorem Take.entry (h : Take env n al r i l s t) : ∃ sl new : Slot, s.slots[i]? = some sl ∧
    sl.state = .free ∧ new.state = .inUse ∧ new.internalSize = sl.internalSize ∧
    t.slots = s.slots.set i new ∧ t.book = s.book ∧ shortfalls t.trace = shortfalls s.trace ∧
    drops t.trace = drops s.trace := by
  obtain ⟨hi, hs, -, -, -⟩ := h
  rename_i sl
  have htr := @State.took_trace env s i n sl r l
  have hsl : (s.took env i sl n r l).slots = s.slots.set i (sl.handed env s l r) ∧
      (s.took env i sl n r l).book = s.book := by
    obtain ⟨mem, trace, he, -⟩ := @State.took_eq env s i n sl r l
    rw [he]
    exact ⟨rfl, rfl⟩
  refine ⟨sl, sl.handed env s l r, hi, hs, rfl, rfl, hsl.1, hsl.2, ?_, ?_⟩
  · rw [htr, shortfalls_putSlot]
  · rw [htr, drops_putSlot hi, hs]
    rfl

section Memory

def Slot.holds (sl : Slot) : Bool := sl.state == .free || sl.state == .inUse

def State.heldkB (s : State) : ℕ := s.totalkB Slot.holds

/-- What `sumProtectedMem` counts beside protected memory and failed evictions. -/
def State.protectedGap (s : State) : ℤ :=
  s.book.sumProtectedMem - s.protectedkB - shortfalls s.trace

/-- What `sumAllocatedMem` counts beside protected memory, the pool and the blocks in use. -/
def State.allocatedGap (s : State) : ℤ :=
  s.book.sumAllocatedMem - s.book.sumProtectedMem - s.heldkB

/-- The counters of memory are as far off as before. -/
structure Balanced (s t : State) : Prop where
  «protected» : t.protectedGap = s.protectedGap
  allocated : t.allocatedGap = s.allocatedGap

theorem Balanced.refl (s : State) : Balanced s s := ⟨rfl, rfl⟩

theorem Balanced.trans (h : Balanced s t) (h' : Balanced t u) : Balanced s u :=
  ⟨h'.protected.trans h.protected, h'.allocated.trans h.allocated⟩

theorem Balanced.congr (hs : t.slots = s.slots) (ht : shortfalls t.trace = shortfalls s.trace)
    (ha : t.book.sumAllocatedMem = s.book.sumAllocatedMem)
    (hp : t.book.sumProtectedMem = s.book.sumProtectedMem) : Balanced s t := by
  refine ⟨?_, ?_⟩
  · rw [State.protectedGap, State.protectedGap, hp, ht, State.protectedkB, State.protectedkB,
      State.totalkB_congr hs]
  · rw [State.allocatedGap, State.allocatedGap, hp, ha, State.heldkB, State.heldkB,
      State.totalkB_congr hs]

theorem Balanced.withUnused (s : State) (n : ℕ) :
    Balanced s { s with book := s.book.withUnused n } := .congr rfl rfl rfl rfl

theorem Balanced.assign (hi : s.slots[i]? = some sl) (hs : t.slots = s.slots.set i new)
    (ht : shortfalls t.trace = shortfalls s.trace)
    (hp : t.book.sumProtectedMem + sl.kBIf Slot.guards =
      s.book.sumProtectedMem + new.kBIf Slot.guards)
    (ha : t.book.sumAllocatedMem - t.book.sumProtectedMem + sl.kBIf Slot.holds =
      s.book.sumAllocatedMem - s.book.sumProtectedMem + new.kBIf Slot.holds) : Balanced s t := by
  have total : ∀ q, t.totalkB q + sl.kBIf q = s.totalkB q + new.kBIf q := fun q => by
    rw [State.totalkB, hs]
    exact sum_map_set hi
  have hg := total Slot.guards
  have hh := total Slot.holds
  refine ⟨?_, ?_⟩
  · simp only [State.protectedGap, State.protectedkB, ht]
    omega
  · simp only [State.allocatedGap, State.heldkB]
    omega

theorem Slot.kBIf_holds (h : sl.state ≠ .free ∧ sl.state ≠ .inUse) : sl.kBIf Slot.holds = 0 := by
  rw [Slot.kBIf, if_neg]
  simp [Slot.holds, h.1, h.2]

theorem Slot.kBIf_holds_of (h : sl.state = .free ∨ sl.state = .inUse) :
    sl.kBIf Slot.holds = kB sl.internalSize := by
  rw [Slot.kBIf, if_pos]
  rcases h with h | h <;> simp [Slot.holds, h]

theorem Slot.IsProtected.not_holds (h : sl.IsProtected) : sl.kBIf Slot.holds = 0 :=
  kBIf_holds (by rcases h with h | h <;> simp [h])

theorem Evicts.sums (h : Evicts env s t) :
    t.book.sumAllocatedMem = s.book.sumAllocatedMem ∧
      t.book.sumProtectedMem = s.book.sumProtectedMem ∧
      shortfalls t.trace = shortfalls s.trace ∧ t.heldkB = s.heldkB := by
  have put : ∀ {v w : State} {i : ℕ} {sl new : Slot}, w.slots = v.slots → w.book = v.book →
      shortfalls w.trace = shortfalls v.trace → v.slots[i]? = some sl → sl.IsProtected →
      new.kBIf Slot.holds = 0 → (w.putSlot i new).book.sumAllocatedMem = v.book.sumAllocatedMem ∧
        (w.putSlot i new).book.sumProtectedMem = v.book.sumProtectedMem ∧
        shortfalls (w.putSlot i new).trace = shortfalls v.trace ∧
        (w.putSlot i new).heldkB = v.heldkB := by
    intro v w i sl new hs hb ht hi hp hn
    have := State.totalkB_putSlot (v := new) (hs ▸ hi : w.slots[i]? = some sl) Slot.holds
    rw [hp.not_holds, hn, State.totalkB_congr hs] at this
    rw [State.putSlot_book, hb, shortfalls_putSlot, ht]
    exact ⟨rfl, rfl, rfl, this⟩
  induction h with
  | refl => exact ⟨rfl, rfl, rfl, rfl⟩
  | tail _ he ih =>
    obtain ⟨h1, h2, h3, h4⟩ := ih
    rw [← h1, ← h2, ← h3, ← h4]
    cases he with
    | quiet b hb => exact ⟨hb.allocated, hb.protected, rfl, rfl⟩
    | @shrink i sl p hi hs hp =>
      have hn : Slot.IsProtected { sl with state := .beginProtected, internalSize := sl.keptSize env } :=
        Or.inr rfl
      exact put rfl rfl rfl hi (Or.inl hs) hn.not_holds
    | @drop i sl p hi hs hp =>
      have hn : sl.emptied.kBIf Slot.holds = 0 := Slot.kBIf_holds (by simp [Slot.emptied])
      exact put rfl rfl rfl hi (Or.inr hs) hn

theorem Sweep.balanced (hP : 1024 ∣ env.pageSize) (hc : Core env s) (h : Sweep env s t) :
    Balanced s t := by
  have gaps : ∀ {v : State} {d : ℕ}, Evicts env s v → Released env s v d →
      v.protectedGap = s.protectedGap + d ∧ v.allocatedGap = s.allocatedGap := by
    intro v d he hd
    obtain ⟨h1, h2, h3, h4⟩ := Evicts.sums he
    have := hd hP hc
    refine ⟨?_, ?_⟩
    · rw [State.protectedGap, State.protectedGap, h2, h3]
      omega
    · rw [State.allocatedGap, State.allocatedGap, h1, h2, h4]
  cases h with
  | @full v d he hd =>
    obtain ⟨h1, h2⟩ := gaps he hd
    have h3 : (v.booked d).protectedGap = v.protectedGap - d := by
      change v.book.sumProtectedMem - d - v.protectedkB - shortfalls v.trace = _
      unfold State.protectedGap
      omega
    have h4 : (v.booked d).allocatedGap = v.allocatedGap := by
      change v.book.sumAllocatedMem - d - (v.book.sumProtectedMem - d) - v.heldkB = _
      unfold State.allocatedGap
      omega
    exact ⟨by omega, h4.trans h2⟩
  | @short v d he hd =>
    obtain ⟨h1, h2⟩ := gaps he hd
    have h3 : (v.log (.shortfall d)).protectedGap = v.protectedGap - d := by
      change v.book.sumProtectedMem - v.protectedkB - ((d + shortfalls v.trace : ℕ) : ℤ) = _
      unfold State.protectedGap
      omega
    exact ⟨by omega, h2⟩

/-- The sizes of chunks that the counters of memory rely on. -/
def Sane (env : Env) (n : ℕ) : Prop := WholePages env n ∧ n ≤ env.taskSize

theorem Slot.kBIf_guards_of (h : sl.state ≠ .allProtected ∧ sl.state ≠ .beginProtected) :
    sl.kBIf Slot.guards = 0 :=
  kBIf_not (by rintro (hs | hs); exacts [h.1 hs, h.2 hs])

theorem Balanced.unguarded (hi : s.slots[i]? = some sl) (hs : t.slots = s.slots.set i new)
    (ht : shortfalls t.trace = shortfalls s.trace)
    (h1 : sl.state ≠ .allProtected ∧ sl.state ≠ .beginProtected)
    (h2 : new.state ≠ .allProtected ∧ new.state ≠ .beginProtected)
    (hp : t.book.sumProtectedMem = s.book.sumProtectedMem)
    (ha : t.book.sumAllocatedMem + sl.kBIf Slot.holds =
      s.book.sumAllocatedMem + new.kBIf Slot.holds) : Balanced s t := by
  refine .assign hi hs ht ?_ ?_
  · rw [Slot.kBIf_guards_of h1, Slot.kBIf_guards_of h2, hp]
  · rw [hp]
    omega

theorem Base.balanced (hP : 1024 ∣ env.pageSize) (hok : ∀ n, ok n → Sane env n) (hc : Core env s)
    (h : Base env ok s t) : Balanced s t := by
  cases h with
  | quiet b hb => exact .congr rfl rfl hb.allocated hb.protected
  | sweep h => exact h.balanced hP hc
  | @gain i a m n sl hi hs hm hn hg b hb =>
    refine .unguarded hi (State.putSlot_slots (s := s.created env a n)) ?_ (by simp [hs]) (by simp)
      hb.protected ?_
    · exact shortfalls_putSlot (s := s.created env a n)
    · rw [Slot.kBIf_holds (by simp [hs]), Slot.kBIf_holds_of (Or.inl rfl)]
      have := hb.allocated hP (hok m hm).2
      simp only
      omega
  | @clear i sl hi hs =>
    refine .unguarded hi State.putSlot_slots shortfalls_putSlot (by simp [hs]) (by simp [hs])
      (by rw [State.putSlot_book]) ?_
    rw [State.putSlot_book, Slot.kBIf_holds (by simp [hs]), Slot.kBIf_holds (by simp [hs])]
  | @split i j n sl e hi hs hj he hn hm =>
    have hr := (hc.slot hi).region (by rw [hs]; nofun)
    have hle := hr.le
    have ht := env.taskSize_le
    have hij : j ≠ i := by
      rintro rfl
      rw [hi] at hj
      cases hj
      rw [hs] at he; cases he
    have hi' : (s.putSlot j (sl.surplus n)).slots[i]? = some sl := by
      rw [State.getElem?_putSlot hj, if_neg hij, hi]
    have hadd := kB_add (n := n) (m := sl.internalSize - n) (hP.trans (hok n hm).1.2)
      (hP.trans (Nat.dvd_sub hr.size_dvd (hok n hm).1.2)) (by omega)
    rw [Nat.add_sub_cancel' hn.le] at hadd
    have total : ∀ q, (s.splitAt i sl j n).totalkB q + e.kBIf q + sl.kBIf q =
        s.totalkB q + (sl.surplus n).kBIf q + Slot.kBIf q { sl with internalSize := n } := fun q => by
      have h1 := State.totalkB_putSlot (v := sl.surplus n) hj q
      have h2 := State.totalkB_putSlot (v := { sl with internalSize := n }) hi' q
      rw [State.splitAt]
      omega
    have hsur : (sl.surplus n).state = .free := hs
    have hsize : (sl.surplus n).internalSize = sl.internalSize - n := by
      rw [Slot.surplus_eq hr hn]
    have hg := total Slot.guards
    have hh := total Slot.holds
    rw [Slot.kBIf_guards_of (by simp [he]), Slot.kBIf_guards_of (by simp [hs]),
      Slot.kBIf_guards_of (by simp [hsur]), Slot.kBIf_guards_of (by simp [hs])] at hg
    have hcut : Slot.kBIf Slot.holds { sl with internalSize := n } = kB n :=
      Slot.kBIf_holds_of (Or.inl hs)
    rw [Slot.kBIf_holds (by simp [he]), Slot.kBIf_holds_of (Or.inl hs),
      Slot.kBIf_holds_of (Or.inl hsur), hcut, hsize] at hh
    have hb : (s.splitAt i sl j n).book = s.book := by
      rw [State.splitAt, State.putSlot_book, State.putSlot_book]
    have htr : shortfalls (s.splitAt i sl j n).trace = shortfalls s.trace := by
      rw [State.splitAt, shortfalls_putSlot, shortfalls_putSlot]
    refine Balanced.trans ⟨?_, ?_⟩ (Balanced.withUnused _ _)
    · rw [State.protectedGap, State.protectedGap, hb, htr, State.protectedkB, State.protectedkB]
      omega
    · rw [State.allocatedGap, State.allocatedGap, hb, State.heldkB, State.heldkB]
      omega

theorem Bases.balanced (hP : 1024 ∣ env.pageSize) (hok : ∀ n, ok n → Sane env n) (hc : Core env s)
    (h : Bases env ok s t) : Balanced s t := by
  induction h with
  | refl => exact .refl s
  | tail h hb ih =>
    exact ih.trans (hb.balanced hP hok (Bases.core h (fun n hn => (hok n hn).1) hc))

theorem Take.balanced (h : Take env n al r i l s t) : Balanced s t := by
  obtain ⟨sl, new, hi, hs, hs', hsize, hslots, hb, ht, -⟩ := h.entry
  refine .unguarded hi hslots ht (by simp [hs]) (by simp [hs']) (by rw [hb]) ?_
  rw [hb, Slot.kBIf_holds_of (Or.inl hs), Slot.kBIf_holds_of (Or.inr hs'), hsize]

theorem State.switchList_total (a m : ℕ) (q : Slot → Bool) (hq : q Slot.zero = false) :
    (s.switchList env a m).totalkB q = s.totalkB q := by
  simp [State.totalkB, State.switchList, hq]

theorem State.switchList_balanced (a m : ℕ) : Balanced s (s.switchList env a m) := by
  refine ⟨?_, ?_⟩
  · rw [State.protectedGap, State.protectedGap, State.protectedkB,
      State.switchList_total a m _ rfl]
    rfl
  · rw [State.allocatedGap, State.allocatedGap, State.heldkB, State.switchList_total a m _ rfl]
    rfl

theorem Release.balanced (hi : s.slots[i]? = some sl) (hs : sl.state = .inUse)
    (h : Release env i sl site s t) : Balanced s t := by
  cases h with
  | guard hk b hu hd ha hp =>
    have hst : (Slot.freedAt { sl with state := .allProtected } site).state = .allProtected :=
      Slot.freedAt_state
    have hsize : (Slot.freedAt { sl with state := .allProtected } site).internalSize =
        sl.internalSize := by
      obtain ⟨src, f, n, he⟩ := Slot.freedAt_eq { sl with state := .allProtected } site
      rw [he]
    refine .assign hi (State.putSlot_slots (s := s.setPages env _ _ _))
      (shortfalls_putSlot (s := s.setPages env _ _ _)) ?_ ?_
    · rw [Slot.kBIf_guards_of (by simp [hs]), Slot.kBIf_guards (Or.inl hst), hsize]
      exact (add_zero _).trans hp
    · rw [Slot.kBIf_holds_of (Or.inr hs), Slot.kBIf_holds (by simp [hst])]
      simp only [ha, hp]
      omega
  | @delete p hpage b hu hd ha hp =>
    refine .unguarded hi (State.putSlot_slots (s := s.deleted env _ _ _))
      (shortfalls_putSlot (s := s.deleted env _ _ _)) (by simp [hs]) (by simp [Slot.emptied]) hp ?_
    rw [Slot.kBIf_holds_of (Or.inr hs), Slot.kBIf_holds (by simp [Slot.emptied])]
    simp only [ha]
    omega

theorem Taken.sane {s' : State} (hT : Taken env n al r i l s s' sl new) (hS : Served env n al r) :
    Sane env n := by
  refine ⟨hS.pos_dvd, ?_⟩
  have := hT.region.le
  rw [← hT.size]
  omega

theorem Growth.balanced (hP : 1024 ∣ env.pageSize) (hc : Core env s) (h : Growth env s t) :
    Balanced s t := by
  obtain ⟨s₁, s₂, s₄, i, j, l, old, new, sl, p, b, m⟩ := h.move hc
  have hneed : s₁.listNeed env = s.listNeed env := State.listNeed_congr (Bases.allocList m.before).2
  have hsane := m.taken.sane m.core₁.listServed.1
  have h₁ := Bases.balanced hP (fun n hn => by rw [hn, ← hneed]; exact hsane) hc m.before
  have h₂ := m.take.balanced
  have h₃ : Balanced s₂ (s₁.switched env s₂ l) := State.switchList_balanced _ _
  have h₄ := Bases.balanced hP (fun _ => False.elim) m.core₃ m.after
  have h₅ : Balanced s₄ t := by
    rw [m.eq]
    refine .unguarded m.slot₄ (State.putSlot_slots (s := s₄.deleted env _ _ _))
      (shortfalls_putSlot (s := s₄.deleted env _ _ _)) (by simp [m.list.state])
      (by simp [Slot.emptied]) m.protected ?_
    rw [Slot.kBIf_holds_of (Or.inr m.list.state), Slot.kBIf_holds (by simp [Slot.emptied])]
    simp only [m.allocated]
    omega
  exact h₁.trans (h₂.trans (h₃.trans (h₄.trans h₅)))

theorem Inners.balanced (hP : 1024 ∣ env.pageSize) (hok : ∀ n, ok n → Sane env n)
    (hc : Core env s) (h : Inners env ok s t) : Balanced s t := by
  induction h with
  | refl => exact .refl s
  | tail h hi ih =>
    have hc' := (Inners.kept (fun n hn => (hok n hn).1) hc h).core
    cases hi with
    | base hb => exact ih.trans (hb.balanced hP hok hc')
    | growth hg => exact ih.trans (hg.balanced hP hc')

theorem Act.balanced (hP : 1024 ∣ env.pageSize) (hS : ∀ n al r, serves n al r → Served env n al r)
    (h : Safe env s) (ha : Act env works serves s t) : Balanced s t := by
  cases ha with
  | silent _ hs =>
    cases hs with
    | inner hi => exact Inners.balanced hP (fun _ => False.elim) h.core (.single hi)
    | list => exact .congr rfl rfl rfl rfl
    | depth => exact .congr rfl rfl rfl rfl
  | @serve _ u n al i r l _ hr hu hi ht =>
    have hSr := hS _ _ _ hr
    obtain ⟨-, ⟨sl, new, hT⟩, -⟩ := h.serve hSr hu hi ht
    refine (Inners.balanced hP (fun m hm => ?_) h.core hi).trans ht.balanced
    obtain rfl := hm.resolve_right (not_not.mpr hSr)
    exact hT.sane hSr
  | release _ hi h0 hp hu hr =>
    exact hr.balanced hi ((h.core.slot hi).isUser h0 hp hu).1
  | store => exact .congr rfl rfl rfl rfl
  | set => exact .congr rfl rfl rfl rfl
  | initDone => exact .congr rfl rfl rfl rfl

end Memory

section Limit

variable {limit : ℤ}

theorem Book.withUnused_sumProtectedMem (b : Book) (n : ℕ) :
    (b.withUnused n).sumProtectedMem = b.sumProtectedMem := rfl

theorem Base.sumProtected_le (h : Base env ok s t) :
    t.book.sumProtectedMem ≤ s.book.sumProtectedMem := by
  cases h with
  | quiet b hb => exact hb.protected.le
  | sweep h =>
    cases h with
    | @full v d he hd =>
      have := (Evicts.sums he).2.1
      change v.book.sumProtectedMem - d ≤ _
      omega
    | @short v d he hd => exact (Evicts.sums he).2.1.le
  | gain _ _ _ _ _ b hb => exact hb.protected.le
  | clear => rw [State.putSlot_book]
  | @split i j n sl e =>
    have hb : (s.splitAt i sl j n).book = s.book := by
      rw [State.splitAt, State.putSlot_book, State.putSlot_book]
    exact ((Book.withUnused_sumProtectedMem _ _).trans (by rw [hb])).le

theorem Bases.sumProtected_le (h : Bases env ok s t) :
    t.book.sumProtectedMem ≤ s.book.sumProtectedMem := by
  induction h with
  | refl => exact le_rfl
  | tail _ hb ih => exact hb.sumProtected_le.trans ih

theorem Take.sumProtected (h : Take env n al r i l s t) :
    t.book.sumProtectedMem = s.book.sumProtectedMem := by
  obtain ⟨-, -, -, -, -, -, -, hb, -⟩ := h.entry
  rw [hb]

theorem Growth.sumProtected_le (hc : Core env s) (h : Growth env s t) :
    t.book.sumProtectedMem ≤ s.book.sumProtectedMem := by
  obtain ⟨s₁, s₂, s₄, i, j, l, old, new, sl, p, b, m⟩ := h.move hc
  have h₁ := Bases.sumProtected_le m.before
  have h₂ := m.take.sumProtected
  have h₃ : (s₁.switched env s₂ l).book.sumProtectedMem = s₂.book.sumProtectedMem := rfl
  have h₄ := Bases.sumProtected_le m.after
  have h₅ : t.book.sumProtectedMem = s₄.book.sumProtectedMem := by
    rw [m.eq]
    exact m.protected
  omega

theorem Inners.sumProtected_le (hok : ∀ n, ok n → WholePages env n) (hc : Core env s)
    (h : Inners env ok s t) : t.book.sumProtectedMem ≤ s.book.sumProtectedMem := by
  induction h with
  | refl => exact le_rfl
  | tail h hi ih =>
    refine le_trans ?_ ih
    cases hi with
    | base hb => exact hb.sumProtected_le
    | growth hg => exact hg.sumProtected_le (Inners.kept hok hc h).core

/-- Only memory within the limit is booked as protected. -/
theorem Act.sumProtected_le (hS : ∀ n al r, serves n al r → Served env n al r)
    (hw : ∀ cfg, works cfg → cfg.protectFree = limit) (h0 : 0 < limit) (h : Safe env s)
    (hle : s.book.sumProtectedMem ≤ limit) (ha : Act env works serves s t) :
    t.book.sumProtectedMem ≤ limit := by
  cases ha with
  | silent _ hs =>
    cases hs with
    | inner hi => exact (Inners.sumProtected_le (fun _ => False.elim) h.core (.single hi)).trans hle
    | list => exact hle
    | depth => exact hle
  | serve _ hr hu hi ht =>
    rw [ht.sumProtected]
    exact (Inners.sumProtected_le (hS _ _ _ hr).whole h.core hi).trans hle
  | release hc hi h0' hp hu hr =>
    cases hr with
    | guard hk b _ _ _ hb =>
      have hcfg := hw _ hc
      simp only [State.keepsProtected, Bool.and_eq_true, decide_eq_true_eq] at hk
      have := hk.2
      change b.sumProtectedMem ≤ limit
      omega
    | delete _ b _ _ _ hb => exact hb.le.trans hle
  | store => exact hle
  | set => exact hle
  | initDone => exact hle

end Limit

section Unused

/-- How far `unUsedSlots` is from the number of empty slots, when the slots that evictions have
emptied are left out; all of it modulo the size of a word. -/
def State.unusedGap (s : State) : ℤ :=
  ((s.book.unUsedSlots : ℤ) + drops s.trace - s.count .empty) % 2 ^ 64

/-- `unUsedSlots` is as far off as before, and it is still a word. -/
structure Tallied (s t : State) : Prop where
  gap : t.unusedGap = s.unusedGap
  lt : s.book.unUsedSlots < 2 ^ 64 → t.book.unUsedSlots < 2 ^ 64

theorem Tallied.refl (s : State) : Tallied s s := ⟨rfl, id⟩

theorem Tallied.trans (h : Tallied s t) (h' : Tallied t u) : Tallied s u :=
  ⟨h'.gap.trans h.gap, fun hlt => h'.lt (h.lt hlt)⟩

theorem Tallied.congr (hs : t.slots = s.slots) (ht : drops t.trace = drops s.trace)
    (hb : t.book.unUsedSlots = s.book.unUsedSlots) : Tallied s t := by
  refine ⟨?_, fun h => hb ▸ h⟩
  rw [State.unusedGap, State.unusedGap, hb, ht, State.count_congr hs]

theorem Tallied.assign (hi : s.slots[i]? = some sl) (hs : t.slots = s.slots.set i new)
    (ht : drops t.trace =
      drops s.trace + if sl.state = .beginProtected ∧ new.state = .empty then 1 else 0)
    (hlt : s.book.unUsedSlots < 2 ^ 64 → t.book.unUsedSlots < 2 ^ 64)
    (hb : (t.book.unUsedSlots + (if sl.state = .beginProtected ∧ new.state = .empty then 1 else 0) +
        if sl.state = .empty then 1 else 0) % 2 ^ 64 =
      (s.book.unUsedSlots + if new.state = .empty then 1 else 0) % 2 ^ 64) : Tallied s t := by
  refine ⟨?_, hlt⟩
  have hcount := State.count_putSlot (v := new) hi .empty
  have hc : t.count .empty = (s.putSlot i new).count .empty :=
    State.count_congr (by rw [hs, State.putSlot_slots]) _
  rw [← hc] at hcount
  rw [State.unusedGap, State.unusedGap, ht]
  generalize (if sl.state = .beginProtected ∧ new.state = .empty then 1 else 0) = d at *
  generalize (if sl.state = .empty then 1 else 0) = e at *
  generalize (if new.state = .empty then 1 else 0) = e' at *
  omega

theorem Tallied.put (hi : s.slots[i]? = some sl) (hs : t.slots = s.slots.set i new)
    (ht : drops t.trace =
      drops s.trace + if sl.state = .beginProtected ∧ new.state = .empty then 1 else 0)
    (hu : t.book.unUsedSlots = s.book.unUsedSlots)
    (he : new.state = .empty ↔ sl.state = .empty ∨ sl.state = .beginProtected) : Tallied s t := by
  refine .assign hi hs ht (fun h => hu ▸ h) ?_
  rw [hu]
  cases hst : sl.state <;> simp_all

theorem Evicts.tallied (h : Evicts env s t) : Tallied s t := by
  induction h with
  | refl => exact .refl s
  | @tail u v _ he ih =>
    refine ih.trans ?_
    cases he with
    | quiet b hb => exact .congr rfl rfl hb.unUsed
    | @shrink i sl p hi hs hp =>
      refine .put hi (State.putSlot_slots (s := u.deleted env _ _ _))
        (drops_putSlot (s := u.deleted env _ _ _) hi) ?_ (by simp [hs])
      rw [State.shrunk, State.putSlot_book]
      rfl
    | @drop i sl p hi hs hp =>
      refine .put hi (State.putSlot_slots (s := u.deleted env _ _ _))
        (drops_putSlot (s := u.deleted env _ _ _) hi) ?_ (by simp [hs, Slot.emptied])
      rw [State.dropped, State.putSlot_book]
      rfl

theorem Sweep.tallied (h : Sweep env s t) : Tallied s t := by
  cases h with
  | full he => exact (Evicts.tallied he).trans (.congr rfl rfl rfl)
  | short he => exact (Evicts.tallied he).trans (.congr rfl rfl rfl)

theorem Tallied.splitAt {j u : ℕ} {e : Slot} (hi : s.slots[i]? = some sl)
    (hs : sl.state = .free) (hj : s.slots[j]? = some e) (he : e.state = .empty)
    (hlt : u < 2 ^ 64) (hu : (u + 1) % 2 ^ 64 = s.book.unUsedSlots % 2 ^ 64) :
    Tallied s { s.splitAt i sl j n with book := (s.splitAt i sl j n).book.withUnused u } := by
  have hij : j ≠ i := by
    rintro rfl
    rw [hi] at hj
    cases hj
    rw [hs] at he; cases he
  have hi' : (s.putSlot j (sl.surplus n)).slots[i]? = some sl := by
    rw [State.getElem?_putSlot hj, if_neg hij, hi]
  have hsur : (sl.surplus n).state = .free := hs
  set t : State := { s.putSlot j (sl.surplus n) with book := s.book.withUnused u } with ht
  have h₁ : Tallied s t := by
    refine .assign hj State.putSlot_slots (drops_putSlot hj) (fun _ => hlt) ?_
    simpa [he, hsur, ht] using hu
  refine h₁.trans ?_
  have hb : (s.splitAt i sl j n).book = s.book := by
    rw [State.splitAt, State.putSlot_book, State.putSlot_book]
  rw [hb]
  exact .put (t := { s.splitAt i sl j n with book := s.book.withUnused u }) hi'
    State.putSlot_slots (drops_putSlot hi') rfl (by simp [hs])

theorem Base.tallied (h : Base env ok s t) : Tallied s t := by
  cases h with
  | quiet b hb => exact .congr rfl rfl hb.unUsed
  | sweep h => exact h.tallied
  | @gain i a m n sl hi hs hm hn hg b hb =>
    refine .assign hi (State.putSlot_slots (s := s.created env a n))
      (drops_putSlot (s := s.created env a n) hi)
      (fun _ => hb.unUsed.trans_lt (Word.sub_lt _ _)) ?_
    simp only [hb.unUsed, hs, reduceCtorEq, false_and, if_false, if_true, Word.sub]
    omega
  | @clear i sl hi hs =>
    exact .put hi State.putSlot_slots (drops_putSlot hi) (by rw [State.putSlot_book]) (by simp [hs])
  | @split i j n sl e hi hs hj he hn hm =>
    refine .splitAt hi hs hj he (Word.sub_lt _ _) ?_
    rw [State.splitAt, State.putSlot_book, State.putSlot_book, Word.sub]
    omega

theorem Bases.tallied (h : Bases env ok s t) : Tallied s t := by
  induction h with
  | refl => exact .refl s
  | tail _ hb ih => exact ih.trans hb.tallied

theorem Take.tallied (h : Take env n al r i l s t) : Tallied s t := by
  obtain ⟨sl, new, hi, hs, hs', -, hslots, hb, -, ht⟩ := h.entry
  refine .put hi hslots ?_ (by rw [hb]) (by simp [hs, hs'])
  rw [ht]
  simp [hs]

theorem Tallied.switchList (s : State) (a m : ℕ) : Tallied s (s.switchList env a m) := by
  have hu : (s.switchList env a m).book.unUsedSlots =
      Word.add s.book.unUsedSlots env.slotsPerPage := rfl
  have hc : (s.switchList env a m).count .empty = s.count .empty + env.slotsPerPage := by
    have hz : (Slot.zero.state == SlotState.empty) = true := rfl
    simp [State.count, State.switchList, List.countP_append, List.countP_replicate, hz]
  refine ⟨?_, fun _ => hu.trans_lt (Word.add_lt _ _)⟩
  rw [State.unusedGap, State.unusedGap, hc, hu]
  change (_ + (drops s.trace : ℤ) - _) % 2 ^ 64 = _
  unfold Word.add
  omega

theorem Release.tallied (hi : s.slots[i]? = some sl) (hs : sl.state ≠ .empty)
    (hp : ¬ sl.IsProtected) (h : Release env i sl site s t) : Tallied s t := by
  have hb : sl.state ≠ .beginProtected := fun h => hp (Or.inr h)
  cases h with
  | guard hk b hu =>
    have hst : (Slot.freedAt { sl with state := .allProtected } site).state = .allProtected :=
      Slot.freedAt_state
    exact .put hi (State.putSlot_slots (s := s.setPages env _ _ _))
      (drops_putSlot (s := s.setPages env _ _ _) hi) hu (by simp [hst, hs, hb])
  | @delete p hpage b hu =>
    refine .assign hi (State.putSlot_slots (s := s.deleted env _ _ _))
      (drops_putSlot (s := s.deleted env _ _ _) hi) (fun _ => hu.trans_lt (Word.add_lt _ _)) ?_
    simp [hu, hb, hs, Slot.emptied, Word.add]

theorem Growth.tallied (hT : Tidy env s) (h : Growth env s t) : Tallied s t := by
  cases h with
  | @moved s₁ s₂ s₄ i j l sl h₁ ht hsize hz h₃ hj hu h0 hp ha hr =>
    have hT₄ := (hT.switched h₁ ht hsize hz).bases h₃
    exact (Bases.tallied h₁).trans (ht.tallied.trans ((Tallied.switchList _ _ _).trans
      ((Bases.tallied h₃).trans (hr.tallied hj (fun he => h0 (hu ▸ (hT₄.empty hj he).2)) hp))))
  | stuck h₁ ht hsize hz ho he =>
    exact he ▸ (Bases.tallied h₁).trans (ht.tallied.trans (Tallied.switchList _ _ _))
  | lost h₁ ht => exact (Bases.tallied h₁).trans ht.tallied

theorem Inner.tallied (hT : Tidy env s) (h : Inner env ok s t) : Tallied s t := by
  cases h with
  | base hb => exact hb.tallied
  | growth hg => exact hg.tallied hT

theorem Inners.tallied (hT : Tidy env s) (h : Inners env ok s t) : Tallied s t := by
  induction h with
  | refl => exact .refl s
  | tail h hi ih => exact ih.trans (hi.tallied (hT.inners h))

/-- `unUsedSlots` is as far off as before, whatever the requests are. -/
theorem Act.tallied (hT : Tidy env s) (ha : Act env works serves s t) : Tallied s t := by
  cases ha with
  | silent _ hs =>
    cases hs with
    | inner hi => exact hi.tallied hT
    | list => exact .congr rfl rfl rfl
    | depth => exact .congr rfl rfl rfl
  | serve _ _ _ hi ht => exact (Inners.tallied hT hi).trans ht.tallied
  | release _ hi h0 hp hu hr => exact hr.tallied hi (fun he => h0 (hT.empty hi he).2) hp
  | store => exact .congr rfl rfl rfl
  | set => exact .congr rfl rfl rfl
  | initDone => exact .congr rfl rfl rfl

end Unused

end Duma

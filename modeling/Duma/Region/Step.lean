import Duma.Region.Rules
import Mathlib.Logic.Relation

/-! # Atomic steps

The changes that the inner parts of the allocator make between two calls of the program:
shrinking and dropping protected memory, getting a chunk, splitting a free slot. Each keeps
the slot invariant and leaves the blocks of the program alone.
-/

namespace Duma

variable {env : Env} {ok : ℕ → Prop} {s s' s'' : State} {i j a n x : ℕ} {sl new : Slot} {p : Page}

section Effects

def Book.withUnused (b : Book) (u : ℕ) : Book := { b with unUsedSlots := u }

variable (env s i sl p)

/-- A protected slot keeps only the pages up to its user address. -/
def State.shrunk : State :=
  (s.deleted env (Word.add sl.internalAddress (sl.keptSize env))
    (Word.sub sl.internalSize (sl.keptSize env)) p).putSlot i
    { sl with state := .beginProtected, internalSize := sl.keptSize env }

def State.dropped : State :=
  (s.deleted env sl.internalAddress sl.internalSize p).putSlot i sl.emptied

def State.gained (a n : ℕ) : State :=
  (s.created env a n).putSlot i { sl with internalAddress := a, internalSize := n, state := .free }

/-- A free slot keeps `n` bytes and hands the surplus to slot `j`. -/
def State.splitAt (j n : ℕ) : State :=
  (s.putSlot j (sl.surplus n)).putSlot i { sl with internalSize := n }

def State.useSlot : State :=
  { s with book := s.book.withUnused (Word.sub s.book.unUsedSlots 1) }

def State.unuseSlot : State :=
  { s with book := s.book.withUnused (Word.add s.book.unUsedSlots 1) }

end Effects

theorem State.withBook_slots (s : State) (b : Book) :
    ({ s with book := b } : State).slots = s.slots := rfl

@[simp] theorem State.useSlot_slots : s.useSlot.slots = s.slots := State.withBook_slots s _

@[simp] theorem State.unuseSlot_slots : s.unuseSlot.slots = s.slots := State.withBook_slots s _

theorem State.withBook_book (s : State) (b : Book) : ({ s with book := b } : State).book = b := rfl

@[simp] theorem State.useSlot_book (s : State) :
    s.useSlot.book = s.book.withUnused (Word.sub s.book.unUsedSlots 1) := State.withBook_book s _

@[simp] theorem State.unuseSlot_book (s : State) :
    s.unuseSlot.book = s.book.withUnused (Word.add s.book.unUsedSlots 1) := State.withBook_book s _

@[simp] theorem Book.withUnused_unUsedSlots (b : Book) (u : ℕ) :
    (b.withUnused u).unUsedSlots = u := rfl

@[simp] theorem Book.withUnused_semDepth (b : Book) (u : ℕ) :
    (b.withUnused u).semDepth = b.semDepth := rfl

section Ledger

/-- The total size, in kB, of the regions of the slots with a property. -/
def State.totalkB (s : State) (p : Slot → Bool) : ℕ :=
  (s.slots.map fun sl => if p sl then kB sl.internalSize else 0).sum

def Slot.guards (sl : Slot) : Bool := sl.state == .allProtected || sl.state == .beginProtected

def State.protectedkB (s : State) : ℕ := s.totalkB Slot.guards

/-- A change of counters other than those of slots, memory and the lock. -/
structure Quiet (s : State) (b : Book) : Prop where
  unUsed : b.unUsedSlots = s.book.unUsedSlots
  semDepth : b.semDepth = s.book.semDepth
  allocated : b.sumAllocatedMem = s.book.sumAllocatedMem
  «protected» : b.sumProtectedMem = s.book.sumProtectedMem

theorem Quiet.refl (s : State) : Quiet s s.book := ⟨rfl, rfl, rfl, rfl⟩

inductive Evict (env : Env) (s : State) : State → Prop
  | quiet (b : Book) (hb : Quiet s b) : Evict env s { s with book := b }
  | shrink {i : ℕ} {sl : Slot} {p : Page} (hi : s.slots[i]? = some sl)
      (hs : sl.state = .allProtected) (hp : p ≠ .readWrite) :
      Evict env s (s.shrunk env i sl p)
  | drop {i : ℕ} {sl : Slot} {p : Page} (hi : s.slots[i]? = some sl)
      (hs : sl.state = .beginProtected) (hp : p ≠ .readWrite) :
      Evict env s (s.dropped env i sl p)

abbrev Evicts (env : Env) : State → State → Prop := Relation.ReflTransGen (Evict env)

def Released (env : Env) (s t : State) (d : ℕ) : Prop :=
  1024 ∣ env.pageSize → Core env s → t.protectedkB + d = s.protectedkB

def State.booked (t : State) (d : ℕ) : State :=
  { t with
    book := { t.book with
      sumProtectedMem := t.book.sumProtectedMem - d
      sumAllocatedMem := t.book.sumAllocatedMem - d } }

/-- An eviction. What it releases is taken off the counters if it is as much as asked for;
otherwise it is not, although no protected memory is left. An eviction of 0 kB does nothing. -/
inductive Sweep (env : Env) (s : State) : State → Prop
  | full {t : State} {d : ℕ} (h : Evicts env s t) (hd : Released env s t d) :
      Sweep env s (t.booked d)
  | short {t : State} {d : ℕ} (h : Evicts env s t) (hd : Released env s t d)
      (hn : d = 0 ∨ ∀ sl ∈ t.slots, ¬ sl.IsProtected) : Sweep env s (t.log (.shortfall d))

structure Gained (env : Env) (s : State) (m n : ℕ) (b : Book) : Prop where
  unUsed : b.unUsedSlots = Word.sub s.book.unUsedSlots 1
  semDepth : b.semDepth = s.book.semDepth
  «protected» : b.sumProtectedMem = s.book.sumProtectedMem
  allocated : 1024 ∣ env.pageSize → m ≤ env.taskSize →
    b.sumAllocatedMem = s.book.sumAllocatedMem + kB n

end Ledger

/-- An atomic step inside the allocator; `ok` is what is known of the sizes asked for. -/
inductive Base (env : Env) (ok : ℕ → Prop) (s : State) : State → Prop
  | quiet (b : Book) (hb : Quiet s b) : Base env ok s { s with book := b }
  | sweep {t : State} (h : Sweep env s t) : Base env ok s t
  | gain {i a m n : ℕ} {sl : Slot} (hi : s.slots[i]? = some sl) (hs : sl.state = .empty)
      (hok : ok m) (hn : env.pageSize ∣ n) (hg : s.Granted env a n) (b : Book)
      (hb : Gained env s m n b) : Base env ok s { s.gained env i sl a n with book := b }
  | clear {i : ℕ} {sl : Slot} (hi : s.slots[i]? = some sl) (hs : sl.state = .empty) :
      Base env ok s (s.putSlot i { sl with internalAddress := 0 })
  | split {i j n : ℕ} {sl e : Slot} (hi : s.slots[i]? = some sl) (hs : sl.state = .free)
      (hj : s.slots[j]? = some e) (he : e.state = .empty) (hn : n < sl.internalSize)
      (hok : ok n) : Base env ok s (s.splitAt i sl j n).useSlot

abbrev Bases (env : Env) (ok : ℕ → Prop) : State → State → Prop :=
  Relation.ReflTransGen (Base env ok)

/-- Everything but the slots in `I` and the memory in `R` is as it was. -/
structure Local (env : Env) (I R : ℕ → Prop) (s s' : State) : Prop where
  slot : ∀ ⦃k : ℕ⦄ ⦃sl : Slot⦄, ¬ I k → s.slots[k]? = some sl → s'.slots[k]? = some sl
  back : ∀ ⦃k : ℕ⦄ ⦃sl : Slot⦄, ¬ I k → s'.slots[k]? = some sl → sl.state ≠ .empty →
    s.slots[k]? = some sl
  page : ∀ ⦃x⦄, ¬ R x → s'.page env x = s.page env x
  mem : ∀ ⦃x⦄, ¬ R x → s'.mem x = s.mem x
  inside : ∀ ⦃x k⦄, R x → s.Owns k x → I k

/-- The blocks of the program, their records, pages and bytes are as they were, and there is
no new one. -/
structure Keeps (env : Env) (s s' : State) : Prop where
  slot : ∀ ⦃k : ℕ⦄ ⦃sl : Slot⦄, s.slots[k]? = some sl → sl.IsUser → s'.slots[k]? = some sl
  back : ∀ ⦃k : ℕ⦄ ⦃sl : Slot⦄, s'.slots[k]? = some sl → sl.IsUser → s.slots[k]? = some sl
  page : ∀ ⦃k : ℕ⦄ ⦃sl : Slot⦄ ⦃x : ℕ⦄, s.slots[k]? = some sl → sl.IsUser → sl.Owns x →
    s'.page env x = s.page env x
  mem : ∀ ⦃k : ℕ⦄ ⦃sl : Slot⦄ ⦃x : ℕ⦄, s.slots[k]? = some sl → sl.IsUser → sl.Owns x →
    s'.mem x = s.mem x

theorem Keeps.refl (s : State) : Keeps env s s :=
  ⟨fun _ _ h _ => h, fun _ _ h _ => h, fun _ _ _ _ _ _ => rfl, fun _ _ _ _ _ _ => rfl⟩

theorem Keeps.trans (h : Keeps env s s') (h' : Keeps env s' s'') : Keeps env s s'' where
  slot _ _ hk hu := h'.slot (h.slot hk hu) hu
  back _ _ hk hu := h.back (h'.back hk hu) hu
  page _ _ _ hk hu hx := (h'.page (h.slot hk hu) hu hx).trans (h.page hk hu hx)
  mem _ _ _ hk hu hx := (h'.mem (h.slot hk hu) hu hx).trans (h.mem hk hu hx)

theorem Local.keeps {I R : ℕ → Prop} (h : Local env I R s s') (hc : Core env s)
    (hold : ∀ k (sl : Slot), I k → s.slots[k]? = some sl → ¬ sl.IsUser)
    (hnew : ∀ k (sl : Slot), I k → s'.slots[k]? = some sl → ¬ sl.IsUser) : Keeps env s s' := by
  have hR : ∀ {k : ℕ} {sl : Slot} {x : ℕ}, s.slots[k]? = some sl → sl.IsUser → sl.Owns x → ¬ R x :=
    fun hk hu hx hr => hold _ _ (h.inside hr (hc.owns hk hx)) hk hu
  refine ⟨fun k sl hk hu => h.slot (fun hI => hold k sl hI hk hu) hk, fun k sl hk hu => ?_,
    fun k sl x hk hu hx => h.page (hR hk hu hx), fun k sl x hk hu hx => h.mem (hR hk hu hx)⟩
  exact h.back (fun hI => hnew k sl hI hk hu) hk (by rw [hu.1]; nofun)

section Kept

theorem Slot.keptSize_spec (hr : sl.RegionOk env) (hu : sl.Owns sl.userAddress) :
    env.pageSize ∣ sl.keptSize env ∧ sl.userAddress < sl.internalAddress + sl.keptSize env ∧
      sl.keptSize env ≤ sl.internalSize := by
  have hP := env.pageSize_pos
  have hP' := env.pageSize_lt
  have ht := env.taskSize_le
  have := hr.le
  obtain ⟨h1, h2⟩ := hu
  have hsub := Word.sub_eq (x := sl.userAddress) (y := sl.internalAddress) (by omega) h1
  have hadd := Word.add_eq (x := sl.userAddress - sl.internalAddress) (y := env.pageSize) (by omega)
  have hk : sl.keptSize env =
      ((sl.userAddress - sl.internalAddress) / env.pageSize + 1) * env.pageSize := by
    rw [Slot.keptSize, hsub, hadd, Word.clearLow_eq (by omega) env.pageSize_word env.pageSize_pow,
      Nat.add_div_right _ hP]
  refine ⟨hk ▸ Nat.dvd_mul_left _ _, ?_, ?_⟩
  · have := Nat.lt_div_mul_add (a := sl.userAddress - sl.internalAddress) hP
    rw [hk, Nat.add_mul]
    omega
  · obtain ⟨c, hc⟩ := hr.size_dvd
    rw [hk, hc, Nat.mul_comm env.pageSize c]
    refine Nat.mul_le_mul_right _ ((Nat.div_lt_iff_lt_mul hP).mpr ?_)
    rw [Nat.mul_comm, ← hc]
    omega

theorem Slot.kept_word (hr : sl.RegionOk env) (hu : sl.Owns sl.userAddress) :
    Word.add sl.internalAddress (sl.keptSize env) = sl.internalAddress + sl.keptSize env ∧
      Word.sub sl.internalSize (sl.keptSize env) = sl.internalSize - sl.keptSize env := by
  obtain ⟨-, -, h⟩ := keptSize_spec hr hu
  have ht := env.taskSize_le
  have := hr.le
  exact ⟨Word.add_eq (by omega), Word.sub_eq (by omega) h⟩

theorem Slot.WellFormed.shrunk (h : sl.WellFormed env) (hs : sl.IsProtected) :
    Slot.WellFormed env
      { sl with state := .beginProtected, internalSize := sl.keptSize env } := by
  have hu := h.owns_of_protected hs
  have hr := h.region (by rcases hs with hs | hs <;> rw [hs] <;> nofun)
  obtain ⟨h1, h2, h3⟩ := Slot.keptSize_spec hr hu
  have hle := hr.le
  refine .guarded (Or.inr rfl) ⟨hr.pos, hr.dvd, h1, ?_, ?_⟩ ⟨hu.1, h2⟩ ?_
  · have := hu.1
    simp only
    omega
  · simp only
    omega
  · cases h <;> simp_all [Slot.IsProtected]

end Kept

theorem Slot.surplus_eq (hr : sl.RegionOk env) (hn : n < sl.internalSize) :
    sl.surplus n =
      { sl with
        internalAddress := sl.internalAddress + n, internalSize := sl.internalSize - n
        userAddress := sl.internalAddress + n, userSize := sl.internalSize - n } := by
  have ht := env.taskSize_le
  have := hr.le
  rw [Slot.surplus, Word.add_eq (by omega), Word.sub_eq (by omega) hn.le]

theorem Slot.WellFormed.emptied (sl : Slot) : sl.emptied.WellFormed env :=
  .empty rfl rfl rfl rfl rfl rfl

theorem Slot.IsProtected.ne_empty (h : sl.IsProtected) : sl.state ≠ .empty := by
  rcases h with h | h <;> rw [h] <;> nofun

theorem Slot.IsProtected.not_isList (h : sl.IsProtected) : ¬ sl.IsList s := fun hl => by
  rcases h with h | h <;> rw [hl.state] at h <;> cases h

section Preserve

variable (h : Core env s) (hi : s.slots[i]? = some sl)
include h hi

theorem Core.shrunk (hs : sl.IsProtected) : Core env (s.shrunk env i sl p) := by
  have hwf := h.slot hi
  have hu := hwf.owns_of_protected hs
  have hr := hwf.region hs.ne_empty
  obtain ⟨h1, h2, h3⟩ := Slot.keptSize_spec hr hu
  obtain ⟨hw1, hw2⟩ := Slot.kept_word hr hu
  rw [State.shrunk, hw1, hw2]
  refine h.giveUp hi hs.ne_empty hs.not_isList (Nat.dvd_add hr.dvd h1)
    (Nat.dvd_sub hr.size_dvd h1) (fun x hx1 hx2 => ⟨by omega, by omega⟩) (hwf.shrunk hs)
    fun x => ?_
  simp only [Slot.Owns]
  omega

theorem Core.dropped (hs : sl.state ≠ .empty) (hl : ¬ sl.IsList s) :
    Core env (s.dropped env i sl p) := by
  have hr := (h.slot hi).region hs
  refine h.giveUp hi hs hl hr.dvd hr.size_dvd (fun x hx1 hx2 => ⟨hx1, hx2⟩)
    (Slot.WellFormed.emptied sl) fun x => ?_
  simp only [Slot.Owns, Slot.emptied]
  omega

theorem Core.gained (hs : sl.state = .empty) (hn : env.pageSize ∣ n) (hg : s.Granted env a n) :
    Core env (s.gained env i sl a n) := by
  have hle := hg.le
  rw [Env.roundUp_of_dvd hn] at hle
  refine h.gain hi hs hg hn ?_ fun x => Iff.rfl
  have hwf := h.slot hi
  cases hwf with
  | empty _ _ hu _ _ ha => exact .free rfl ⟨hg.pos, hg.dvd, hn, hg.size_pos, hle⟩ (Or.inl hu) ha
  | free h' => rw [h'] at hs; cases hs
  | inUse h' => rw [h'] at hs; cases hs
  | guarded h' => exact absurd hs h'.ne_empty

theorem Core.cleared (hs : sl.state = .empty) :
    Core env (s.putSlot i { sl with internalAddress := 0 }) := by
  refine h.relabelEmpty hi hs ?_ hs
  have hwf := h.slot hi
  cases hwf with
  | empty _ _ hu h1 h2 ha => exact .empty hs rfl hu h1 h2 ha
  | free h' => rw [h'] at hs; cases hs
  | inUse h' => rw [h'] at hs; cases hs
  | guarded h' => exact absurd hs h'.ne_empty

theorem Core.splitAt {e : Slot} (hs : sl.state = .free) (hj : s.slots[j]? = some e)
    (he : e.state = .empty) (hn : n < sl.internalSize) (hn0 : 0 < n) (hdvd : env.pageSize ∣ n) :
    Core env (s.splitAt i sl j n) := by
  have hwf := h.slot hi
  have hr := hwf.region (by rw [hs]; nofun)
  have ha := hwf.free_internal hs
  have hle := hr.le
  rw [State.splitAt, Slot.surplus_eq hr hn]
  refine h.cut hi (by rw [hs]; nofun) (fun hl => by rw [hl.state] at hs; cases hs) hj he ?_ ?_
    (fun x hx hx' => ?_) fun x => ?_
  · refine .free hs ⟨hr.pos, hr.dvd, hdvd, hn0, by simp only; omega⟩ ?_ ha
    cases hwf <;> simp_all [Slot.IsProtected]
  · exact .free hs ⟨by simp only; omega, Nat.dvd_add hr.dvd hdvd, Nat.dvd_sub hr.size_dvd hdvd,
      by simp only; omega, by simp only; omega⟩ (Or.inr rfl) ha
  · simp only [Slot.Owns] at hx hx'
    omega
  · simp only [Slot.Owns]
    omega

end Preserve

theorem Evict.core (h : Core env s) (he : Evict env s s') : Core env s' := by
  cases he with
  | quiet b => exact h.of_book
  | shrink hi hs => exact h.shrunk hi (Or.inl hs)
  | drop hi hs =>
    exact h.dropped hi (Slot.IsProtected.ne_empty (Or.inr hs))
      (Slot.IsProtected.not_isList (Or.inr hs))

theorem Evicts.core (h : Core env s) (he : Evicts env s s') : Core env s' := by
  induction he with
  | refl => exact h
  | tail _ he ih => exact he.core ih

theorem Sweep.core (h : Core env s) (hs : Sweep env s s') : Core env s' := by
  cases hs with
  | full he => exact (Evicts.core h he).of_book
  | short he => exact (Evicts.core h he).of_trace fun _ => Iff.rfl

/-- Every atomic step keeps the slot invariant. -/
theorem Base.core (hok : ∀ n, ok n → 0 < n ∧ env.pageSize ∣ n) (h : Core env s)
    (hs : Base env ok s s') : Core env s' := by
  cases hs with
  | quiet b => exact h.of_book
  | sweep hs => exact hs.core h
  | gain hi hs _ hn hg b => exact (h.gained hi hs hn hg).of_book
  | clear hi hs => exact h.cleared hi hs
  | split hi hs hj he hn hn' => exact (h.splitAt hi hs hj he hn (hok _ hn').1 (hok _ hn').2).of_book

end Duma

import Duma.Runs.Alignment

/-! # Products of sizes

What `calloc` hands out for a product of two sizes. The product is computed in 64 bits before the
allocator sees it.
-/

namespace Duma

variable {env : Env} {settings : Settings} {ok : ℕ → Prop} {s s' t : State} {w : World} {r : Request}
  {site : Site} {i n al p : ℕ} {sl new : Slot} {l : Layout} {nelem elsize : ℕ}

section Sized

def Sized (s : State) : Prop := ∀ ⦃i : ℕ⦄ ⦃sl : Slot⦄, s.slots[i]? = some sl → sl.userSize < 2 ^ 64

namespace Sized

theorem congr (h : Sized s) (hs : s'.slots = s.slots) : Sized s' := fun _ _ hi => h (hs ▸ hi)

theorem set (h : Sized s) (hs : s'.slots = s.slots.set i new) (hnew : new.userSize < 2 ^ 64) :
    Sized s' := by
  intro k sl hk
  rw [hs, List.getElem?_set] at hk
  split at hk
  · split at hk
    · cases hk
      exact hnew
    · cases hk
  · exact h hk

theorem edit {k : ℕ} (h : Sized s) (hi : s.slots[i]? = some sl) (hs : s'.slots = s.slots.set k new)
    (hnew : new.userSize = sl.userSize) : Sized s' := h.set hs (hnew ▸ h hi)

theorem empty (h : Sized s) (hs : s'.slots = s.slots.set i sl.emptied) : Sized s' :=
  h.set hs (Nat.two_pow_pos 64)

theorem withBook (h : Sized s) (b : Book) : Sized { s with book := b } := h.congr rfl

theorem evicts (h : Sized s) (he : Evicts env s s') : Sized s' := by
  induction he with
  | refl => exact h
  | tail _ he ih =>
    cases he with
    | quiet b => exact ih.withBook b
    | shrink hi => exact ih.edit hi State.putSlot_slots rfl
    | drop => exact ih.empty State.putSlot_slots

theorem base (h : Sized s) (hb : Base env ok s s') : Sized s' := by
  cases hb with
  | quiet b => exact h.withBook b
  | sweep hs =>
    cases hs with
    | full he => exact (h.evicts he).congr rfl
    | short he => exact (h.evicts he).congr rfl
  | @gain i a m n sl hi hs _ hn hg b =>
    have : Sized (s.gained env i sl a n) := h.edit hi State.putSlot_slots rfl
    exact this.withBook b
  | clear hi => exact h.edit hi State.putSlot_slots rfl
  | @split i j n sl e hi hs hj he hn =>
    have hsurplus : Sized (s.putSlot j (sl.surplus n)) :=
      h.set State.putSlot_slots (Word.sub_lt _ _)
    have hsl := h hi
    have : Sized (s.splitAt i sl j n) := hsurplus.set State.putSlot_slots hsl
    exact this.congr State.useSlot_slots

theorem bases (h : Sized s) (hb : Bases env ok s s') : Sized s' := by
  induction hb with
  | refl => exact h
  | tail _ hs ih => exact ih.base hs

theorem take (h : Sized s) (ht : Take env n al r i l s s') (hr : r.userSize < 2 ^ 64) :
    Sized s' := by
  obtain ⟨hi, -, -, -, -⟩ := ht
  rename_i sl
  obtain ⟨mem, trace, he, -⟩ := @State.took_eq env s i n sl r l
  rw [he]
  exact h.set rfl hr

theorem release (h : Sized s) (hi : s.slots[i]? = some sl) (hr : Release env i sl site s s') :
    Sized s' := by
  cases hr with
  | guard hk b =>
    refine h.edit (k := i) hi State.putSlot_slots ?_
    unfold Slot.freedAt
    split <;> rfl
  | delete hp b => exact h.empty State.putSlot_slots

theorem switchList {a n : ℕ} (h : Sized s) : Sized (s.switchList env a n) := by
  intro k sl hk
  rcases (State.switchList_slot a n k).2 sl hk with hk' | rfl
  · exact h hk'
  · decide

theorem growth (h : Sized s) (hg : Growth env s s') : Sized s' := by
  have hlist : ∀ u : State, (u.listRequest env).userSize < 2 ^ 64 := fun _ => Word.add_lt _ _
  cases hg with
  | moved h₁ ht _ _ h₃ hj _ _ _ _ hr =>
    exact ((((h.bases h₁).take ht (hlist _)).switchList).bases h₃).release hj hr
  | stuck h₁ ht _ _ _ he => exact he ▸ ((h.bases h₁).take ht (hlist _)).switchList
  | lost h₁ ht => exact (h.bases h₁).take ht (hlist _)

theorem inner (h : Sized s) (hi : Inner env ok s s') : Sized s' := by
  cases hi with
  | base hb => exact h.base hb
  | growth hg => exact h.growth hg

theorem inners (h : Sized s) (hi : Inners env ok s s') : Sized s' := by
  induction hi with
  | refl => exact h
  | tail _ hs ih => exact ih.inner hs

theorem act (h : Sized s) (ha : Act env (fun _ => True) (fun _ _ r => r.userSize < 2 ^ 64) s s') :
    Sized s' := by
  cases ha with
  | silent _ hs =>
    cases hs with
    | inner hi => exact h.inner hi
    | list => exact h.congr rfl
    | depth => exact h.congr rfl
  | serve _ hr _ hi ht => exact (h.inners hi).take ht hr
  | release _ hi _ _ _ hr => exact h.release hi hr
  | store => exact h.congr rfl
  | set => exact h.congr rfl
  | initDone => exact h.congr rfl

end Sized

theorem Constructed.sized (h : Constructed env s) : Sized s := by
  intro i sl hi
  have hlt := env.pageSize_lt_arenaSize
  have ht := env.taskSize_le
  have hle := h.le
  rcases h.slot hi with ⟨-, rfl⟩ | ⟨-, rfl⟩ | ⟨-, rfl⟩
  · simp only [Slot.ofList]
    omega
  · simp only [Slot.ofPool, Slot.ofList]
    omega
  · decide

structure Call.Sized (env : Env) (s : State) (c : Call) : Prop where
  «public» : c.Public
  request : ∀ r ∈ c.request env (c.start s), r.userSize < 2 ^ 64

theorem Settings.Asks.sized (h : settings.Asks env r) : r.userSize < 2 ^ 64 := by
  rcases h with rfl | ⟨c, -, size, -, rfl⟩
  · exact show 123 < 2 ^ 64 by decide
  · exact Word.add_lt size 1

theorem sized_driven : Driven env settings (fun _ => True) (fun _ _ r => r.userSize < 2 ^ 64)
    fun w c => c.Sized env w.st where
  call _ _ h := ⟨h.public, trivial, fun r hr => by
    rcases hr with hr | ⟨settings, -, -, hr⟩
    exacts [h.request r hr, hr.sized]⟩
  freq _ _ _ := trivial
  works _ := trivial
  serves _ _ hr _ _ := hr.sized

theorem Reach.sized (hw : Reach env settings (fun w c => c.Sized env w.st) w) : Sized w.st :=
  hw.keeps sized_driven (fun _ h => h.sized) fun _ _ _ hs ha => hs.act ha

end Sized

section Fill

variable {α β : Type} {m : M α} {k : α → M β} {Q : β → State → Prop}

theorem Post.last (h : ∀ a t, Post (k a) Q t) : Post (m >>= k) Q s :=
  Wp.seq (Wp.intro (fun _ _ _ => trivial) fun _ _ _ => trivial : Post m (fun _ _ => True) s)
    fun a t _ => h a t

def Request.FilledAt (env : Env) (r : Request) (p : ℕ) (t : State) : Prop :=
  p ≠ 0 → r.fillByte ≠ -1 → ∀ x, p ≤ x → x < p + r.userSize →
    t.page env x = .readWrite ∧ t.mem x = UInt8.ofInt r.fillByte

theorem allocateEpilog_filled : Post (allocateEpilog env p r)
    (fun p t => Request.FilledAt env r p t) s := by
  have fill : ∀ u, Post (do
      if p ≠ 0 ∧ r.fillByte ≠ -1 ∧ r.userSize ≠ 0 then
        storeRange env p (p + r.userSize) fun _ => UInt8.ofInt r.fillByte
      pure p : M ℕ) (fun p t => Request.FilledAt env r p t) u := by
    refine fun u => Wp.ite (fun h => ?_) fun h => ?_
    · refine Wp.bind_iff.mpr (storeRange_wp (fun hacc _ _ _ x h1 h2 => ⟨hacc x h1 h2, ?_⟩)
        (fun _ => trivial) fun _ _ _ => trivial)
      exact if_pos ⟨h1, h2⟩
    · refine fun hp hf x h1 h2 => absurd ⟨hp, hf, ?_⟩ h
      omega
  exact Wp.ite (fun _ => Post.last fun _ u => fill u) fun _ => fill s

theorem allocate_filled : Post (allocate env r)
    (fun p t => r.userSize ≠ 0 → Request.FilledAt env r p t) s := by
  have serve : ∀ (grow : M Unit) (n al : ℕ) (u : State),
      Post (allocateServe env grow n al r)
        (fun p t => r.userSize ≠ 0 → Request.FilledAt env r p t) u :=
    fun _ _ _ _ => Post.last fun _ _ => Post.last fun _ _ => allocateEpilog_filled.post
      fun _ _ h _ => h
  refine Wp.bind_iff.mpr (Wp.get_iff.mpr (Wp.ite (fun _ => Wp.bind_iff.mpr trivial) fun _ => ?_))
  refine Wp.bind_iff.mpr (modifyBook_wp.mpr (Wp.ite (fun h0 => ?_) fun _ => ?_))
  · exact Wp.intro (fun _ _ _ h => absurd h0 h) fun _ _ _ => trivial
  · exact Wp.ite (fun _ => serve _ _ _ _) fun _ => trivial

end Fill

section Product

theorem State.left_slots {b : Bool} : (s.left env b).slots = s.slots := by cases b <;> rfl

theorem State.filled_slots : (s.filled r p).slots = s.slots := by
  unfold State.filled
  split <;> rfl

theorem Served'.slot (h : Served' env r s p t) (h0 : r.userSize ≠ 0) (hp : p ≠ 0) :
    ∃ (i : ℕ) (sl : Slot), t.slots[i]? = some sl ∧ sl.state = .inUse ∧ sl.allocator = r.allocator ∧
      sl.userAddress = p ∧ sl.userSize = r.userSize := by
  cases h with
  | null _ hz => exact absurd hz h0
  | served _ hh ht =>
    rw [ht, State.filled_slots, State.left_slots]
    cases hh with
    | none _ hz => exact absurd hz hp
    | @some i _ _ _ hT hpl =>
      obtain ⟨hi, -, -, -, -⟩ := hT
      exact ⟨i, _, by rw [State.took_slot hi, if_pos rfl], rfl, rfl, hpl.symm, rfl⟩

/-- A block of the program of `n` bytes at address `p`, all of which are accessible and zero. -/
structure ZeroBlock (env : Env) (p n : ℕ) (t : State) : Prop where
  slot : ∃ (i : ℕ) (sl : Slot), t.slots[i]? = some sl ∧ sl.IsUser ∧ sl.userAddress = p ∧ sl.userSize = n
  access : ∀ x, p ≤ x → x < p + n → t.page env x = .readWrite
  zero : ∀ x, p ≤ x → x < p + n → t.mem x = 0

theorem calloc_filled (hT : Tidy env s) : Post (calloc env settings nelem elsize site)
    (fun p t => Word.mul nelem elsize ≠ 0 →
      Request.FilledAt env (s.tls.callocRequest nelem elsize site) p t) s :=
  demand_post hT (Wp.bind_iff.mpr (Wp.get_iff.mpr allocate_filled))

/-- What `calloc` hands out has as many bytes as the wrapped product says. -/
theorem calloc_zeroBlock (hT : Tidy env s) (h0 : Word.mul nelem elsize ≠ 0)
    (hc : calloc env settings nelem elsize site s = .ok p t) (hp : p ≠ 0) :
    ZeroBlock env p (Word.mul nelem elsize) t := by
  obtain ⟨i, sl, hi, hs, ha, hu, hn⟩ := ((calloc_post hT).returns hc).slot h0 hp
  have hfill := (calloc_filled hT).returns hc h0 hp (show (0 : ℤ) ≠ -1 by decide)
  refine ⟨⟨i, sl, hi, ⟨hs, ?_⟩, hu, hn⟩, fun x h1 h2 => (hfill x h1 h2).1,
    fun x h1 h2 => (hfill x h1 h2).2⟩
  rw [ha]
  exact show AllocType.malloc ≠ .internal by decide

theorem Reach.calloc_lt (hw : Reach env settings (fun w c => c.Sized env w.st) w)
    (hc : calloc env settings nelem elsize site w.st = .ok p t) (h : ZeroBlock env p n t) :
    n < 2 ^ 64 := by
  have hreq : (Call.calloc nelem elsize site).Sized env w.st := by
    refine ⟨trivial, fun r hr => ?_⟩
    cases hr
    exact Nat.mod_lt _ (by decide)
  have hstep : World.Step env settings w (.calloc nelem elsize site) _ := .intro hc
  obtain ⟨i, sl, hi, -, -, rfl⟩ := h.slot
  exact (hw.step hreq hstep).sized hi

theorem Call.Proper.sized {c : Call} (h : c.Proper env s) : c.Sized env s := by
  refine ⟨h.public, fun r hr => ?_⟩
  by_cases h0 : r.userSize = 0
  · rw [h0]
    decide
  · have := (h.request r hr h0).lt
    omega

/-- A block that `calloc` hands out has all its bytes just if the product fits into 64 bits. -/
theorem calloc_exact_iff (hw : Reach env settings (fun w c => c.Sized env w.st) w)
    (h0 : 0 < nelem * elsize) (hc : calloc env settings nelem elsize site w.st = .ok p t)
    (hp : p ≠ 0) : ZeroBlock env p (nelem * elsize) t ↔ nelem * elsize < 2 ^ 64 := by
  constructor
  · exact hw.calloc_lt hc
  · intro hlt
    have hT := (hw.mono _ _ fun _ _ h => h.public).tidy
    have hmul := Word.mul_eq hlt
    have := calloc_zeroBlock hT (by omega) hc hp
    rwa [hmul] at this

theorem calloc_exact_twelve : ∃ w p t, Run Env.sample (Settings.sample 0 (-1)) w ∧
    calloc Env.sample (Settings.sample 0 (-1)) 3 4 Site.unknown w.st = .ok p t ∧ p ≠ 0 ∧
      ZeroBlock Env.sample p (3 * 4) t := by
  obtain ⟨w, p, t, hw, he, hp⟩ := exists_result (Settings.sample 0 (-1)) []
    (.calloc 3 4 Site.unknown) (fun _ p => p != 0) (by decide +kernel)
  have hp : p ≠ 0 := by simpa using hp
  exact ⟨w, p, t, hw, he, hp, (calloc_exact_iff (hw.mono _ _ fun _ _ h => h.sized) (by decide) he
    hp).mpr (by decide)⟩

/-- For 2^63 + 1 elements of two bytes there are two bytes. -/
theorem calloc_exact_fails : ¬ ∀ (env : Env) (settings : Settings) (w : World)
    (nelem elsize p : ℕ) (site : Site) (t : State), settings.Proper env → Run env settings w →
      nelem < 2 ^ 64 → elsize < 2 ^ 64 → 0 < nelem * elsize →
        calloc env settings nelem elsize site w.st = .ok p t → p ≠ 0 →
          ZeroBlock env p (nelem * elsize) t := by
  intro h
  obtain ⟨w, p, t, hw, he, hp⟩ := exists_result (Settings.sample 0 (-1)) []
    (.calloc (2 ^ 63 + 1) 2 Site.unknown) (fun _ p => p != 0) (by decide +kernel)
  have hblock := h _ _ w _ _ p _ t (Settings.sample_proper _ _) hw (by decide) (by decide)
    (by decide) he (by simpa using hp)
  have := (hw.mono _ _ fun _ _ h => h.sized).calloc_lt he hblock
  omega

end Product

end Duma

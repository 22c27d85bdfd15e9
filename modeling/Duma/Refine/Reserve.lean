import Duma.Runs.Policy
import Duma.Runs.List

/-! # The reserve of empty slots

An allocation takes at most two empty slots: one for a new chunk and one for the surplus of a split.
Before that it moves to a longer list if fewer than seven slots are counted as unused. The slots
that evictions empty are on no counter, so they are left out here.
-/

namespace Duma

variable {env : Env} {ok : ℕ → Prop} {s t u v : State} {i j n al p : ℕ} {sl new : Slot}
  {r : Request} {l : Layout} {site : Site} {allocator : Allocator} {grow : M Unit}

section Spare

/-- The empty slots, without those that evictions have emptied. -/
def State.spare (s : State) : ℤ := s.count .empty - drops s.trace

theorem State.spare_congr (hs : t.slots = s.slots) (ht : drops t.trace = drops s.trace) :
    t.spare = s.spare := by
  rw [State.spare, State.spare, ht, State.count_congr hs]

theorem State.spare_putSlot (hi : s.slots[i]? = some sl) (v : Slot) :
    s.spare - 1 ≤ (s.putSlot i v).spare ∧
      ((sl.state = .empty → v.state = .empty) → s.spare ≤ (s.putSlot i v).spare) := by
  have hc := State.count_putSlot (v := v) hi .empty
  have hd : drops (s.putSlot i v).trace = _ := drops_putSlot hi
  have he : sl.state = .beginProtected ∧ v.state = .empty → ¬ sl.state = .empty := by
    rintro ⟨h, -⟩
    rw [h]
    nofun
  unfold State.spare
  rw [hd]
  by_cases h1 : sl.state = .empty <;> by_cases h2 : v.state = .empty <;>
    by_cases h3 : sl.state = .beginProtected <;> simp_all <;> omega

theorem State.spare_switchList (env : Env) (s : State) (a m : ℕ) :
    (s.switchList env a m).spare = s.spare + env.slotsPerPage := by
  have hz : (Slot.zero.state == SlotState.empty) = true := rfl
  have hc : (s.switchList env a m).count .empty = s.count .empty + env.slotsPerPage := by
    simp [State.count, State.switchList, List.countP_append, List.countP_replicate, hz]
  rw [State.spare, State.spare, hc]
  change ((s.count .empty + env.slotsPerPage : ℕ) : ℤ) - drops s.trace = _
  omega

theorem State.spare_le (s : State) : s.spare ≤ s.count .empty := by
  unfold State.spare
  omega

theorem State.unUsedSlots_eq_spare (hg : s.unusedGap = 0) (hu : s.book.unUsedSlots < 2 ^ 64)
    (hl : s.slots.length < 2 ^ 64) (h0 : 0 ≤ s.spare) : (s.book.unUsedSlots : ℤ) = s.spare := by
  have h1 := s.count_le_length .empty
  have h2 := s.spare_le
  unfold State.unusedGap at hg
  unfold State.spare at h0 h2 ⊢
  omega

end Spare

section Steps

theorem Evicts.spare (h : Evicts env s t) : s.spare ≤ t.spare := by
  induction h with
  | refl => exact le_rfl
  | @tail u v _ he ih =>
    refine ih.trans ?_
    cases he with
    | quiet b hb => exact le_rfl
    | @shrink i sl p hi hs hp =>
      exact (State.spare_putSlot (s := u.deleted env _ _ p) hi _).2 fun h => by
        rw [hs] at h
        cases h
    | @drop i sl p hi hs hp =>
      exact (State.spare_putSlot (s := u.deleted env _ _ p) hi _).2 fun _ => rfl

theorem Cedes.spare (h : Cedes env s t) : s.spare ≤ t.spare := by
  induction h with
  | refl => exact le_rfl
  | tail _ hc ih =>
    refine ih.trans ?_
    cases hc with
    | quiet b hb => exact le_rfl
    | sweep hw =>
      cases hw with
      | full he => exact (Evicts.spare he).trans (State.spare_congr rfl rfl).ge
      | short he => exact (Evicts.spare he).trans (State.spare_congr rfl rfl).ge

theorem Bases.spare (hok : ∀ m, ¬ ok m) (h : Bases env ok s t) : s.spare ≤ t.spare := by
  induction h with
  | refl => exact le_rfl
  | @tail u v _ hb ih =>
    refine ih.trans ?_
    cases hb with
    | quiet b hb => exact le_rfl
    | sweep hw => exact Cedes.spare (.single (.sweep hw))
    | gain hi hs hm => exact absurd hm (hok _)
    | clear hi hs => exact (State.spare_putSlot hi _).2 fun h => h
    | split hi hs hj he hn hm => exact absurd hm (hok _)

theorem Take.spare (h : Take env n al r i l s t) : t.spare = s.spare := by
  obtain ⟨sl, new, hi, hs, hs', -, hslots, -, -, ht⟩ := h.entry
  have hc := State.count_putSlot (v := new) hi .empty
  have he : t.count .empty = (s.putSlot i new).count .empty :=
    State.count_congr (by rw [hslots, State.putSlot_slots]) _
  rw [← he, if_neg (by simp [hs]), if_neg (by simp [hs'])] at hc
  rw [State.spare, State.spare, ht]
  omega

theorem Release.spare (hs : sl.state ≠ .empty) (hi : s.slots[i]? = some sl)
    (h : Release env i sl site s t) : s.spare ≤ t.spare := by
  cases h with
  | guard => exact (State.spare_putSlot (s := s.setPages env _ _ _) hi _).2 fun h => absurd h hs
  | delete => exact (State.spare_putSlot (s := s.deleted env _ _ _) hi _).2 fun _ => rfl

theorem State.spare_entered (env : Env) (s : State) (b : Bool) :
    (s.entered env b).spare = s.spare := by
  cases b <;> rfl

theorem State.spare_left (s : State) (b : Bool) : (s.left env b).spare = s.spare := by
  cases b <;> rfl

theorem State.length_entered (env : Env) (s : State) (b : Bool) :
    (s.entered env b).slots.length = s.slots.length := by
  cases b <;> rfl

theorem State.length_left (s : State) (b : Bool) :
    (s.left env b).slots.length = s.slots.length := by
  cases b <;> rfl

theorem Deallocated.spare {b : Bool} (hT : Tidy env s)
    (h : Deallocated env p b allocator site s t) :
    s.spare ≤ t.spare ∧ t.slots.length = s.slots.length := by
  cases h with
  | null _ ht => exact ht ▸ ⟨le_rfl, rfl⟩
  | @freed u h0 hf ht =>
    obtain ⟨hc, hi, hi', hu, hnp, hty, hr⟩ := hf
    have hin : Silents env (fun _ => False) s (s.entered env b) := silents_entered
    have hTu := (hT.silents hin).bases (Cedes.bases hc : Bases env (fun _ => False) _ _)
    have hne : _ ≠ SlotState.empty := fun he => h0 (hu.symm.trans (hTu.empty hi' he).2)
    have h1 := (Cedes.spare hc).trans (hr.spare hne hi')
    have h2 := hr.length.trans (Bases.length (Cedes.bases hc : Bases env (fun _ => False) _ _))
    rw [State.spare_entered] at h1
    rw [State.length_entered] at h2
    rw [ht, State.spare_left, State.length_left]
    exact ⟨h1, h2⟩

end Steps

section Take

theorem readSlot_post : Post (readSlot env i) (fun sl t => s.slots[i]? = some sl ∧ t = s) s := by
  refine Wp.seq (Wp.mono (readSlots_ensures :
    Ensures env (fun _ => False) _ _ (fun _ => True) s) (fun _ _ => id) fun _ _ _ => trivial) ?_
  rintro _ _ ⟨rfl, rfl⟩
  split
  · next sl hi => exact ⟨hi, rfl⟩
  · exact trivial

theorem modifySlot_spare {f : Slot → Slot} : Post (modifySlot env i f) (fun _ t =>
    s.spare - 1 ≤ t.spare ∧
      ((∀ sl, s.slots[i]? = some sl → sl.state = .empty → (f sl).state = .empty) →
        s.spare ≤ t.spare)) s := by
  refine Wp.seq readSlot_post ?_
  rintro sl _ ⟨hi, rfl⟩
  have hput := State.spare_putSlot hi (f sl)
  exact ⟨hput.1, fun hf => hput.2 (hf sl hi)⟩

theorem modifyBook_spare {f : Book → Book} :
    Post (modifyBook f) (fun _ t => t.spare = s.spare) s := modifyBook_wp.mpr rfl

theorem splitSlot_spare {e : Option ℕ} :
    Post (splitSlot env i e n) (fun _ t => s.spare - 1 ≤ t.spare) s := by
  refine Wp.seq readSlot_post ?_
  rintro sl _ ⟨-, rfl⟩
  refine Wp.ite (fun _ => ?_) fun _ => by simp
  cases e with
  | none => exact trivial
  | some j =>
    refine Wp.seq modifySlot_spare fun _ t ht => Wp.seq modifySlot_spare fun _ u hu =>
      modifyBook_spare.post fun _ v hv => ?_
    have hu : t.spare ≤ u.spare := hu.2 fun _ _ he => he
    rw [hv]
    exact ht.1.trans hu

theorem mprotect_same {a : ℕ} {page : Page} : Post (mprotect env a n page)
    (fun _ t => t.slots = s.slots ∧ t.trace = s.trace) s := by
  refine mprotect_post.post ?_
  rintro _ _ rfl
  exact ⟨rfl, rfl⟩

theorem placeBlock_same {a : ℕ} : Post (placeBlock env a n al r)
    (fun _ t => t.slots = s.slots ∧ t.trace = s.trace) s := by
  refine Wp.ite (fun _ => ?_) fun _ => Wp.ite (fun _ => ?_) fun _ => ?_
  · exact Wp.seq mprotect_same fun _ t ht => ht
  · exact Wp.seq mprotect_same fun _ t ht => Wp.seq mprotect_same fun _ u hu =>
      ⟨hu.1.trans ht.1, hu.2.trans ht.2⟩
  · exact Wp.seq mprotect_same fun _ t ht => Wp.seq mprotect_same fun _ u hu =>
      ⟨hu.1.trans ht.1, hu.2.trans ht.2⟩

theorem initSlack_spare : Post (initSlack env i) (fun _ t => s.spare ≤ t.spare) s := by
  have rest : ∀ (t : State) (fill : UInt8), s.spare ≤ t.spare → Post (do
      let sl ← readSlot env i
      if sl.userSize = 0 then pure ()
      else
        storeRange env sl.accessArea.1 sl.userAddress fun _ => fill
        storeRange env sl.userEnd sl.accessArea.2 fun _ => fill : M Unit)
      (fun _ u => s.spare ≤ u.spare) t := by
    intro t fill ht
    refine Wp.seq readSlot_post ?_
    rintro sl _ ⟨-, rfl⟩
    refine Wp.ite (fun _ => ht) fun _ => Wp.seq storeRange_post fun _ u hu =>
      storeRange_post.post fun _ v hv => ?_
    rw [hv, hu]
    exact ht
  refine Wp.bind_iff.mpr (Wp.get_iff.mpr (Wp.ite (fun _ => ?_) fun _ => rest s _ le_rfl))
  exact Wp.seq modifySlot_spare fun _ t ht => rest t _ (ht.2 fun _ _ => id)

theorem takeSlot_spare (hi : s.slots[i]? = some sl) (hs : sl.state ≠ .empty) :
    Post (takeSlot env i n al r) (fun _ t => s.spare ≤ t.spare) s := by
  refine Wp.seq readSlot_post ?_
  rintro sl' _ ⟨-, rfl⟩
  refine Wp.seq placeBlock_same fun l t ht => Wp.bind_iff.mpr (Wp.get_iff.mpr ?_)
  refine Wp.seq modifySlot_spare fun _ u hu => Wp.seq initSlack_spare fun _ v hv => ?_
  have h1 : t.spare = _ := State.spare_congr ht.1 (by rw [ht.2])
  rw [← h1]
  refine (hu.2 fun sl' hi' he => absurd he ?_).trans hv
  rw [ht.1, hi] at hi'
  cases hi'
  exact hs

theorem createMore_spare {e e' : Option ℕ} :
    Post (createMore env n r e e') (fun _ t => s.spare - 1 ≤ t.spare) s := by
  cases e with
  | none => exact trivial
  | some i =>
    cases e' with
    | none => exact trivial
    | some j =>
      have create : ∀ t, s.spare ≤ t.spare → Post (do
          let address ← createChunk env (chunkSizeFor env n) r
          modifySlot env i fun sl => { sl with internalAddress := address }
          if address ≠ 0 then
            let numChunks := numChunksFor (chunkSizeFor env n) r.userSize
            modifyBook fun b =>
              { b with
                sumAllocatedMem :=
                  b.sumAllocatedMem + Word.mul (kB (chunkSizeFor env n)) numChunks
                sumTotalAllocatedMem :=
                  b.sumTotalAllocatedMem + Word.mul (kB (chunkSizeFor env n)) numChunks
                unUsedSlots := Word.sub b.unUsedSlots 1 }
            modifySlot env i fun sl =>
              { sl with internalSize := Word.mul (chunkSizeFor env n) numChunks, state := .free }
          pure (i, some j) : M (ℕ × Option ℕ)) (fun _ t => s.spare - 1 ≤ t.spare) t := by
        intro t ht
        refine Wp.seq (Wp.mono (createChunk_ensures fun _ _ => trivial :
          Ensures env (fun _ => False) _ _ (fun _ => True) t) (fun _ _ => id)
          fun _ _ _ => trivial) ?_
        intro a u hu
        have hsu : s.spare ≤ u.spare := by
          cases hu with
          | none h => exact ht.trans (Cedes.spare h)
          | some h => exact (ht.trans (Cedes.spare h)).trans (State.spare_congr rfl rfl).ge
        refine Wp.seq modifySlot_spare fun _ v hv => ?_
        have hv := hsu.trans (hv.2 fun _ _ => id)
        refine Wp.ite (fun _ => ?_) fun _ => Wp.pure_iff.mpr (by omega)
        refine Wp.seq modifyBook_spare fun _ w hw => Wp.seq modifySlot_spare fun _ x hx => ?_
        have hx := hx.1
        exact Wp.pure_iff.mpr (by omega)
      refine Wp.bind_iff.mpr (Wp.get_iff.mpr (Wp.ite (fun _ => ?_) fun _ => create s le_rfl))
      refine Wp.seq (Wp.mono (reduceProtectedMemory_ensures (kB_le _).le :
        Ensures env (fun _ => False) _ _ (fun _ => True) s) (fun _ _ => id) fun _ _ _ => trivial)
        fun _ t ht => create t (Cedes.spare (.single (.sweep ht.1)))

theorem serveSlot_spare {e : Option ℕ} (hi : s.slots[i]? = some sl)
    (hs : sl.state = .free ∨ sl.internalSize = 0)
    (hj : ∀ j, e = some j → ∃ sl, s.slots[j]? = some sl ∧ sl.state = .empty) :
    Post (do
      let sl ← readSlot env i
      if sl.internalSize ≠ 0 then
        splitSlot env i e n
        takeSlot env i n al r
      else pure 0 : M ℕ) (fun _ t => s.spare - 1 ≤ t.spare) s := by
  refine Wp.seq readSlot_post ?_
  rintro sl' u ⟨hi', hu⟩
  subst hu
  obtain rfl := Option.some.inj (hi.symm.trans hi')
  refine Wp.ite (fun h0 => ?_) fun _ => by simp
  have hfree := hs.resolve_right h0
  refine Wp.seq (Wp.mono (splitSlot_spare.and (splitSlot_ensures hi hfree hj trivial
    fun _ _ => trivial : Ensures env (fun _ => True) _ _ (fun _ => True) u)) (fun _ _ => id)
    fun _ _ _ => trivial) ?_
  rintro _ t ⟨ht, -, sl', hi', hs', -⟩
  exact (takeSlot_spare hi' (by rw [hs']; nofun)).post fun _ u hu => ht.trans hu

/-- The service of a request takes at most two empty slots. -/
theorem allocateFromSlots_spare (hT : Tidy env s) :
    Post (allocateFromSlots env n al r) (fun _ t => s.spare - 2 ≤ t.spare) s := by
  refine Wp.seq (Wp.mono (readSlots_ensures :
    Ensures env (fun _ => False) _ _ (fun _ => True) s) (fun _ _ => id) fun _ _ _ => trivial) ?_
  rintro slots u ⟨hslots, hu⟩
  subst hslots hu
  obtain ⟨hv, -⟩ := @searchSlots_spec n u.slots
  set f := searchSlots n u.slots 0 Found.none
  cases hf : f.fullSlot with
  | some v =>
    obtain ⟨i, sl⟩ := v
    obtain ⟨hi, hs, -⟩ := hv.full hf
    dsimp only
    rw [hf]
    exact (serveSlot_spare hi (Or.inl hs) fun j hj => hv.empty0 hj).post fun _ t ht => by omega
  | none =>
    dsimp only
    rw [hf]
    cases h0 : f.emptySlot0 with
    | none => exact trivial
    | some i =>
      cases h1 : f.emptySlot1 with
      | none => exact trivial
      | some j =>
        obtain ⟨sl, hi, hs⟩ := hv.empty0 h0
        obtain ⟨⟨e, hj, he⟩, i', hi', hij⟩ := hv.empty1 h1
        obtain rfl : i = i' := Option.some.inj (h0.symm.trans hi')
        refine Wp.seq (Wp.mono (createMore_spare.and (createMore_ensures hi hs (hT.empty hi hs).1
          hj he hij backs_id trivial fun _ _ _ => trivial : Ensures env (fun _ => True) _ _
            (fun _ => True) u)) (fun _ _ => id) fun _ _ _ => trivial) ?_
        rintro _ t ⟨ht, rfl, -, ⟨sl', hi', hsl'⟩, hj'⟩
        refine (serveSlot_spare hi' ?_ fun j' hj'' => ?_).post fun _ v hv => by omega
        · exact hsl'.symm.imp And.left fun h => h.2.1
        · cases hj''
          exact ⟨e, hj', he⟩

end Take

section Grow

/-- The reserve is as large as before, or the list is longer and the reserve has grown with it. -/
def Upkeep (s t : State) : Prop :=
  t.slots.length = s.slots.length ∧ s.spare ≤ t.spare ∨
    s.slots.length < t.slots.length ∧ s.spare + 14 ≤ t.spare

theorem Upkeep.spare (h : Upkeep s t) : s.spare ≤ t.spare := by
  rcases h with h | h <;> omega

theorem Upkeep.congr (h : Upkeep s u) (hs : s.spare = t.spare)
    (hl : s.slots.length = t.slots.length) : Upkeep t u := by
  rwa [Upkeep, hs, hl] at h

theorem Env.slotsPerPage_ge : 16 ≤ env.slotsPerPage := by
  have := env.pageSize_ge
  unfold Env.slotsPerPage sizeofSlot
  omega

theorem allocateEpilog_spare : Post (allocateEpilog env p r) (fun _ t => t.spare = s.spare) s := by
  have fill : ∀ t : State, t.spare = s.spare → Post (do
      if p ≠ 0 ∧ r.fillByte ≠ -1 ∧ r.userSize ≠ 0 then
        storeRange env p (p + r.userSize) fun _ => UInt8.ofInt r.fillByte
      pure p : M ℕ) (fun _ t => t.spare = s.spare) t := by
    intro t ht
    refine Wp.ite (fun _ => Wp.seq storeRange_post ?_) fun _ => ht
    rintro _ _ rfl
    exact ht
  refine Wp.ite (fun _ => Wp.seq closeAllocList_post ?_) fun _ => fill s rfl
  rintro _ _ rfl
  exact fill _ rfl

theorem allocateWith_spare {R : State → Prop}
    (hp : Post (allocateProlog env grow r) (fun _ v => R v) s.counted)
    (hR : ∀ v, R v → Tidy env v) : Post (allocateWith env grow r)
      (fun _ t => t.spare = s.spare ∨ ∃ v, R v ∧ v.spare - 2 ≤ t.spare) s := by
  have serve : ∀ n al, Post (allocateServe env grow n al r)
      (fun _ t => t.spare = s.spare ∨ ∃ v, R v ∧ v.spare - 2 ≤ t.spare) s.counted := fun n al =>
    Wp.seq hp fun _ v hv => Wp.seq (allocateFromSlots_spare (hR v hv)) fun _ u hu =>
      allocateEpilog_spare.post fun _ t ht => Or.inr ⟨v, hv, ht ▸ hu⟩
  refine Wp.bind_iff.mpr (Wp.get_iff.mpr (Wp.ite (fun _ => Wp.bind_iff.mpr trivial) fun _ => ?_))
  refine Wp.bind_iff.mpr (modifyBook_wp.mpr ?_)
  refine Wp.ite (fun h0 => ?_) fun h0 => Wp.ite (fun _ => serve _ _) fun _ => trivial
  split
  · exact trivial
  · exact Or.inl rfl
  · exact serve _ _
  · exact Or.inl rfl

theorem listRequest_spare (hT : Tidy env s) :
    Post (allocateWith env (pure ()) (s.listRequest env)) (fun _ t => s.spare - 2 ≤ t.spare) s := by
  have hp : Post (allocateProlog env (pure ()) (s.listRequest env))
      (fun _ v => Tidy env v ∧ v.spare = s.spare) s.counted := by
    refine Wp.seq (Wp.mono (@checkByFreq_ensures env (fun _ => False) s.counted (fun _ => True)
      fun _ _ _ _ => trivial) (fun _ _ => id) fun _ _ _ => trivial) ?_
    rintro _ _ ⟨b, -, rfl⟩
    refine Wp.bind_iff.mpr (Wp.get_iff.mpr (Wp.ite (fun h => absurd rfl h.1) fun _ => ?_))
    exact ⟨hT.congr rfl rfl rfl, rfl⟩
  refine (allocateWith_spare hp fun _ => And.left).post ?_
  rintro _ t (h | ⟨v, hv, h⟩)
  · omega
  · rw [hv.2] at h
    exact h

/-- A growth of the list makes up for the slots that it takes. -/
theorem allocateMoreSlots_spare (hT : Tidy env s) (hc : Core env s) :
    Post (allocateMoreSlots env) (fun _ t => Upkeep s t) s := by
  refine Wp.bind_iff.mpr (Wp.get_iff.mpr ?_)
  have halloc := allocateWith_wp (· = s.listNeed env) (pure ()) (X := Bases env)
    (A := fun _ => True) (B := False) (s := s) (r := s.listRequest env) within_bases
    (fun _ _ _ => backs_id) hT.sizeFor_list
    (fun _ => by rw [hT.sizeFor_list, hT.alignFor_list]; exact hT.listServed) False.elim hT
    False.elim (fun h => absurd rfl h) (fun b hq => ⟨fun _ _ _ _ => trivial, fun t _ _ =>
      ⟨fun _ _ _ => trivial, fun _ _ _ _ => trivial, fun _ _ => trivial⟩⟩)
    ⟨fun _ _ => trivial, fun _ _ => trivial⟩ fun _ => trivial
  refine Wp.seq (Wp.mono (halloc.and (listRequest_spare hT)) (fun _ _ => id)
    fun _ _ _ => trivial) ?_
  rintro p t ⟨ht, hspare⟩
  cases ht with
  | null _ h0 => exact absurd h0 hT.listRequest_ne
  | @served b u hq hh ht =>
    have hb : Bases env (fun _ => False) s { s with book := b } := hq.bases
    rw [hT.sizeFor_list, hT.alignFor_list] at hh
    have ht : t = u := by rw [ht]; exact if_neg (by simp [State.listRequest])
    subst ht
    have hh := hh.of_steps within_bases hb
    cases hh with
    | none h hp =>
      refine Wp.ite (fun _ => Wp.pure_iff.mpr (Or.inl ?_)) fun h' => absurd hp h'
      exact ⟨Bases.length h, Bases.spare (fun _ => id) h⟩
    | @some i l u h hT' hp =>
      have hc₁ := Bases.core h (fun n hn => hn ▸ hc.wholeList) hc
      obtain ⟨h1, h2⟩ := Bases.allocList h
      have hreq : u.listRequest env = s.listRequest env := State.listRequest_congr h2
      have hneed : u.listNeed env = s.listNeed env := State.listNeed_congr h2
      rw [← hneed, ← hreq] at hT'
      obtain ⟨hS, -, -⟩ := hc₁.listServed
      obtain ⟨old, new, hTk⟩ := hT'.taken hc₁ hS
      have hpos := hTk.region'.pos.trans_le (hTk.placed.owns_user hTk.region').1
      have hne : p ≠ 0 := by
        have hu : new.userAddress = l.userAddr := by rw [hTk.new_eq]; rfl
        rw [hp, ← hu]
        exact hpos.ne'
      refine Wp.ite (fun h0 => absurd h0 hne) fun _ => ?_
      refine Wp.seq memcpyAccess_post ?_
      rintro _ v ⟨hv, hlt⟩
      subst hv
      refine Wp.bind_iff.mpr (touch_wp (fun _ => ?_) fun _ => trivial)
      refine Wp.bind_iff.mpr (Wp.modify_iff.mpr (deallocate_post.post fun _ w hw => Or.inr ?_))
      have hsw := hT.switched h hT' (h2 ▸ hlt) (hp ▸ hne)
      rw [hreq, ← hp] at hsw
      obtain ⟨h3, h4⟩ := hw.spare hsw
      have h5 := v.spare_switchList env p (s.listRequest env).userSize
      have h6 : (v.switchList env p (s.listRequest env).userSize).slots.length =
          v.slots.length + env.slotsPerPage := by
        simp [State.switchList]
      have h7 := @Env.slotsPerPage_ge env
      have h8 := hT'.length.trans (Bases.length h)
      exact ⟨by omega, by omega⟩

/-- The allocation finds a longer list where it searches the slots. -/
def State.Lengthens (env : Env) (s : State) (r : Request) : Prop :=
  ∀ v, s.searched env r = some v → s.slots.length < v.slots.length

theorem allocateProlog_spare (hs : Safe env s) :
    Post (allocateProlog env (allocateMoreSlots env) r) (fun _ v => Tidy env v ∧ Upkeep s v) s := by
  have he := hs.silents (fun _ => False.elim)
    (silents_entered : Silents env (fun _ => False) s (s.entered env r.protectAllocList))
  have hspare := s.spare_entered env r.protectAllocList
  have hlen := s.length_entered env r.protectAllocList
  have hrest : Post (do
      checkByFreq env
      let s ← get
      if r.allocator.type ≠ .internal ∧ s.book.unUsedSlots < 7 then allocateMoreSlots env : M Unit)
      (fun _ v => Upkeep s v) (s.entered env r.protectAllocList) := by
    refine Wp.seq (Wp.mono (@checkByFreq_ensures env (fun _ => False)
      (s.entered env r.protectAllocList) (fun _ => True) fun _ _ _ _ => trivial) (fun _ _ => id)
      fun _ _ _ => trivial) ?_
    rintro _ _ ⟨b, -, rfl⟩
    refine Wp.bind_iff.mpr (Wp.get_iff.mpr (Wp.ite (fun _ => ?_) fun _ => Or.inl ⟨hlen, hspare.ge⟩))
    exact (allocateMoreSlots_spare (he.tidy.withBook b) he.core.of_book).post fun _ v hv =>
      hv.congr hspare hlen
  have hup : Post (allocateProlog env (allocateMoreSlots env) r) (fun _ v => Upkeep s v) s := by
    refine Wp.mono (enter_wp (B := False) (A := fun _ => True) (k := fun _ => do
      checkByFreq env
      let s ← get
      if r.allocator.type ≠ .internal ∧ s.book.unUsedSlots < 7 then allocateMoreSlots env)
      False.elim (Wp.mono hrest (fun _ _ => id) fun _ _ _ => False.elim)) (fun _ _ => id)
      fun _ _ _ => trivial
  exact (Wp.and (allocateProlog_post backs_id hs.tidy) hup).mono
    (fun _ v hv => ⟨he.tidy.inners hv.1, hv.2⟩) fun _ _ _ => trivial

/-- An allocation costs two slots at most, and none if the list is moved for it. -/
theorem allocate_spare (hs : Safe env s) : Post (allocate env r) (fun _ t => s.spare - 2 ≤ t.spare ∧
    (s.Lengthens env r → s.spare ≤ t.spare)) s := by
  have hp : Post (allocateProlog env (allocateMoreSlots env) r) (fun _ v =>
      s.searched env r = some v ∧ Tidy env v ∧ Upkeep s v) s.counted :=
    (Wp.keep (allocateProlog_spare hs.counted)).post fun _ v hv => ⟨State.searchedWith_of hv.1, hv.2⟩
  refine (allocateWith_spare hp fun _ h => h.2.1).post ?_
  rintro _ t (h | ⟨v, ⟨hv, -, hup⟩, h⟩)
  · exact ⟨by omega, fun _ => h.ge⟩
  · refine ⟨by have := hup.spare; omega, fun hl => ?_⟩
    have hlen := hl v hv
    rcases hup with hup | hup <;> omega

end Grow

section Stops

/-- Inner steps that leave the reserve alone where nothing is asked for. -/
def Sparing (env : Env) (ok : ℕ → Prop) (s t : State) : Prop :=
  Inners env ok s t ∧ ((∀ m, ¬ ok m) → Core env s → s.spare ≤ t.spare)

theorem within_sparing : Within env (Sparing env) where
  bases h := ⟨Bases.inners h, fun hok _ => Bases.spare hok h⟩
  trans h h' := ⟨h.1.trans h'.1, fun hok hc => (h.2 hok hc).trans (h'.2 hok
    (Inners.kept (fun m hm => absurd hm (hok m)) hc h.1).core)⟩
  mono h := ⟨Inners.mono (fun _ => False.elim) h.1, fun _ hc => h.2 (fun _ => id) hc⟩
  inners h := h.1

theorem State.supplied (h : 2 ≤ s.spare) : s.Supplied n := by
  have := s.spare_le
  exact Or.inl (by omega)

/-- An allocation is never stopped for want of an empty slot while the reserve is there. -/
theorem allocate_no_shortage (hs : Safe env s) (hS : s.Serves env (Served env) r)
    (hu : r.allocator.type ≠ .internal) (ho : r.protectAllocList = false → Open env s)
    (h2 : 2 ≤ s.spare) :
    Wp (allocate env r) (fun _ _ => True) (fun e _ => ¬ Shortage e) s := by
  have hslack : ∀ {sl : Slot} {e : Stop}, SlackReport sl e → ¬ Shortage e := by
    rintro sl e (rfl | rfl) <;> nofun
  have hserve : ∀ {n al : ℕ} {q : Request} {t : State}, 2 ≤ t.spare →
      ServeStops env n al q (fun e => ¬ Shortage e) t := fun ht =>
    ⟨fun h => absurd (State.supplied ht) h, fun _ _ _ _ => nofun, fun _ _ => nofun⟩
  have hcore : ∀ b, Quiet s b →
      Safe env (State.entered env r.protectAllocList { s with book := b }) := fun b hq =>
    (hs.silents (fun _ => False.elim) hq.silents).silents (fun _ => False.elim) silents_entered
  have hspare : ∀ b t, Quiet s b → Sparing env (fun _ => False)
      (State.entered env r.protectAllocList { s with book := b }) t → 2 ≤ t.spare := by
    intro b t hq ht
    have hle := ht.2 (fun _ => id) (hcore b hq).core
    rw [State.spare_entered] at hle
    exact h2.trans hle
  refine Wp.mono (allocateWith_wp (Asked env (s.sizeFor env r) (s.alignFor r) r)
    (allocateMoreSlots env) (X := Sparing env) (A := fun e => ¬ Shortage e) (B := True)
    within_sparing (fun _ _ _ => backs_id) (Or.inl rfl) served_of_asked
    (fun _ h => absurd h hu) hs.tidy
    (fun _ => ⟨⟨hS.whole, hs.core, hs.live⟩, ho⟩) (fun _ b hq b' t hq' ht => ?_)
    (fun b hq => ⟨fun _ _ _ => hslack, fun t ht _ => hserve (hspare b t hq ht)⟩)
    ⟨fun _ _ => nofun, fun _ _ => nofun⟩ fun h => absurd h hs.tidy.pos)
    (fun _ _ _ => trivial) fun _ _ he => he trivial
  have ht : Sparing env (fun _ => False)
      (State.entered env r.protectAllocList { s with book := b }) t :=
    ht ▸ within_sparing.bases hq'.bases
  have h2t := hspare b t hq ht
  have hT := (hcore b hq).tidy.inners ht.1
  have hst := (Inners.kept (fun _ => False.elim) (hcore b hq).core ht.1).core
  have hens : Ensures env (Asked env (s.sizeFor env r) (s.alignFor r) r) (allocateMoreSlots env)
      (fun _ u => Inners env (fun _ => False) t u) (fun e => ¬ Shortage e) t :=
    allocateMoreSlots_ensures backs_id hT ⟨fun _ _ _ => hslack, fun u hu _ =>
      hserve (h2t.trans (Bases.spare (fun _ => id) hu)), fun _ => nofun⟩
  exact (Wp.and hens (allocateMoreSlots_spare hT hst)).mono
    (fun _ u hu => ⟨hu.1, fun _ _ => hu.2.spare⟩) fun _ _ he => he.1

end Stops

end Duma

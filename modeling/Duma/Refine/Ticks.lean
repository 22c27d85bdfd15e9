import Duma.Foundation.Period
import Duma.Refine.Api
import Duma.Refine.Views

/-! # The operations that reach the counter of the periodic check

Every allocation and deallocation that is not settled at once starts with the periodic check. A
call of the allocator is a run of such operations: its own, and those with which it moves the slot
list. They are counted by `numAllocs` and `numDeallocs`.
-/

namespace Duma

variable {env : Env} {s t u v : State} {i n al p : ℕ} {r : Request} {l : Layout} {z z' : ℤ}
  {T : State → Prop} {grow : M Unit} {site : Site} {allocator : Allocator} {α : Type}

section Timed

/-- Nothing that the periodic check goes by differs. -/
structure Still (s t : State) : Prop where
  cfg : t.cfg = s.cfg
  counter : t.book.checkFreqCounter = s.book.checkFreqCounter

theorem Still.refl (s : State) : Still s s := ⟨rfl, rfl⟩

theorem Still.trans (h : Still s t) (h' : Still t u) : Still s u :=
  ⟨h'.cfg.trans h.cfg, h'.counter.trans h.counter⟩

/-- An operation reaches the counter in `u` and is behind the check in `v`. -/
def TickAt (env : Env) (u v : State) : Prop := checkByFreq env u = .ok () v

/-- A run from `s` to `t` in which operations reach the counter in the states `l`. -/
abbrev Ticks (env : Env) : State → List State → State → Prop := Visits Still (TickAt env)

/-- The allocations that were begun and the deallocations that were accepted so far. -/
def State.operations (s : State) : ℤ := s.book.numAllocs + s.book.numDeallocs

/-- From `s` to `t` operations reach the counter in states with the property `T`. There are `z` more
operations than that. -/
def Timed (env : Env) (T : State → Prop) (z : ℤ) (s t : State) : Prop :=
  ∃ l, Ticks env s l t ∧ (∀ u ∈ l, T u) ∧ t.operations = s.operations + l.length + z

theorem Timed.trans (h : Timed env T z s t) (h' : Timed env T z' t u) :
    Timed env T (z + z') s u := by
  obtain ⟨l₁, h₁, hT₁, hn₁⟩ := h
  obtain ⟨l₂, h₂, hT₂, hn₂⟩ := h'
  refine ⟨l₁ ++ l₂, h₁.append (fun _ _ _ => Still.trans) h₂, ?_, ?_⟩
  · intro a ha
    rcases List.mem_append.mp ha with ha | ha
    exacts [hT₁ a ha, hT₂ a ha]
  · rw [hn₂, hn₁, List.length_append]
    omega

theorem Timed.mono {T' : State → Prop} (h : Timed env T z s t) (hT : ∀ u, T u → T' u) :
    Timed env T' z s t := by
  obtain ⟨l, hl, hTl, hn⟩ := h
  exact ⟨l, hl, fun u hu => hT u (hTl u hu), hn⟩

theorem Still.timed (h : Still s t) (hn : t.operations = s.operations + z) :
    Timed env T z s t :=
  ⟨[], .quiet h, fun _ hu => absurd hu List.not_mem_nil, by rw [hn]; simp⟩

/-- What the periodic check goes by, and the number of operations. -/
abbrev tickView : Config → Book → Config × ℤ × ℤ × ℤ := fun c b =>
  (c, b.checkFreqCounter, b.numAllocs, b.numDeallocs)

theorem tickView_blind : BlindToMemory tickView where
  unused _ _ _ := rfl
  sums _ _ _ _ _ := rfl
  calls _ _ _ _ := rfl

theorem timed_of_view (h : t.view tickView = s.view tickView) : Timed env T 0 s t := by
  obtain ⟨hc, hb, ha, hd⟩ := by simpa [State.view, tickView] using h
  refine Still.timed ⟨hc, hb⟩ ?_
  rw [State.operations, State.operations, ha, hd, add_zero]

theorem Timed.level (h : Timed env T z s t) (hv : u.view tickView = t.view tickView) :
    Timed env T z s u := by
  simpa using h.trans (timed_of_view hv)

theorem leaves_post {m : M α} (h : Leaves (State.view tickView) m) :
    Post m (fun _ t => t.view tickView = s.view tickView) s :=
  (h s).mono (fun _ _ ht => ht) fun _ _ _ => trivial

theorem openAllocList_timed : Post (openAllocList env)
    (fun _ t => t = s.opened env ∧ t.view tickView = s.view tickView) s :=
  openAllocList_post.and (leaves_post (openAllocList_leaves fun _ _ _ => rfl)) |>.mono
    (fun _ _ => id) fun _ _ _ => trivial

end Timed

section Check

theorem checkByFreq_post : Post (checkByFreq env)
    (fun _ t => TickAt env s t ∧ ∃ b, Quiet s b ∧ t = { s with book := b }) s :=
  Wp.keep (Wp.mono (@checkByFreq_ensures env (fun _ => False) s (fun _ => True)
    fun _ _ _ _ => trivial) (fun _ _ => id) fun _ _ _ => trivial)

theorem checkSlacks_leaves {γ : Type} {g : Config → Book → γ} (slots : List Slot) :
    Leaves (State.view g) (checkSlacks env slots) := by
  induction slots with
  | nil => exact leaves_pure
  | cons sl rest ih =>
    exact Leaves.ite (fun _ => checkSlack_leaves.bind fun _ => ih) fun _ => ih

theorem checkByFreq_timed (hT : T s) : Post (checkByFreq env)
    (fun _ t => Timed env T (-1) s t ∧ ∃ b, Quiet s b ∧ t = { s with book := b }) s := by
  have hview : Leaves (State.view fun _ b => (b.numAllocs, b.numDeallocs)) (checkByFreq env) := by
    have hcheck : Leaves (State.view fun _ b => (b.numAllocs, b.numDeallocs))
        (checkAllSlacks env) := readSlots_leaves.bind fun _ => checkSlacks_leaves _
    refine Leaves.get_bind fun _ => Leaves.ite (fun _ => ?_) fun _ => leaves_pure
    refine Leaves.bind (leaves_modify fun _ => rfl) fun _ => Leaves.get_bind fun _ => ?_
    exact Leaves.ite (fun _ => hcheck.bind fun _ => leaves_modify fun _ => rfl) fun _ => leaves_pure
  refine ((hview s).and checkByFreq_post).mono ?_ fun _ _ _ => trivial
  rintro _ t ⟨hn, hr, hb⟩
  refine ⟨⟨[s], .visit (.refl s) hr (.quiet (.refl t)), ?_, ?_⟩, hb⟩
  · intro a ha
    rw [List.mem_singleton.mp ha]
    exact hT
  · obtain ⟨ha, hd⟩ := by simpa [State.view] using hn
    simp [State.operations, ha, hd]

end Check

section Allocate

def State.settles (s : State) (r : Request) : ℤ :=
  if r.userSize = 0 ∧ s.cfg.strategy r.allocator ≠ 3 then 1 else 0

theorem allocateProlog_timed (hT : T (s.entered env r.protectAllocList))
    (hgrow : r.allocator.type ≠ .internal → ∀ b, Quiet (s.entered env r.protectAllocList) b →
      Post grow (fun _ u => Timed env T 0
        { s.entered env r.protectAllocList with book := b } u)
        { s.entered env r.protectAllocList with book := b }) :
    Post (allocateProlog env grow r) (fun _ t => Timed env T (-1) s t) s := by
  have rest : ∀ e : State, e = s.entered env r.protectAllocList →
      e.view tickView = s.view tickView → Post (do
      checkByFreq env
      let s ← get
      if r.allocator.type ≠ .internal ∧ s.book.unUsedSlots < 7 then grow : M Unit)
      (fun _ t => Timed env T (-1) s t) e := by
    rintro _ rfl he
    refine Wp.seq (checkByFreq_timed hT) ?_
    rintro _ t ⟨ht, b, hb, rfl⟩
    have ht := (timed_of_view he).trans ht
    rw [zero_add] at ht
    refine Wp.bind_iff.mpr (Wp.get_iff.mpr (Wp.ite (fun h => ?_) fun _ => ht))
    exact (hgrow h.1 b hb).post fun _ u hu => by simpa using ht.trans hu
  refine Wp.ite (fun hp => ?_) fun hp => ?_
  · refine Wp.seq openAllocList_timed ?_
    rintro _ t ⟨rfl, ht⟩
    exact rest _ (by rw [State.entered, if_pos hp]) ht
  · exact rest s (by rw [State.entered, if_neg hp]) rfl

theorem allocateServe_timed (hT : T (s.entered env r.protectAllocList))
    (hgrow : r.allocator.type ≠ .internal → ∀ b, Quiet (s.entered env r.protectAllocList) b →
      Post grow (fun _ u => Timed env T 0
        { s.entered env r.protectAllocList with book := b } u)
        { s.entered env r.protectAllocList with book := b }) :
    Post (allocateServe env grow n al r) (fun _ t => Timed env T (-1) s t) s := by
  refine Wp.seq (allocateProlog_timed hT hgrow) fun _ t ht => ?_
  refine Wp.seq (leaves_post tickView_blind.allocateFromSlots) fun p u hu => ?_
  refine (leaves_post (allocateEpilog_leaves fun _ _ _ => rfl)).post fun _ v hv => ?_
  exact (ht.level hu).level hv

theorem Quiet.counted (s : State) :
    Quiet s { s.book with numAllocs := s.book.numAllocs + 1 } := ⟨rfl, rfl, rfl, rfl⟩

theorem allocateWith_timed
    (hT : ∀ b, Quiet s b → T (State.entered env r.protectAllocList { s with book := b }))
    (hgrow : r.allocator.type ≠ .internal → ∀ b b', Quiet s b →
      Quiet (State.entered env r.protectAllocList { s with book := b }) b' →
      Post grow (fun _ u => Timed env T 0
        { State.entered env r.protectAllocList { s with book := b } with book := b' } u)
        { State.entered env r.protectAllocList { s with book := b } with book := b' }) :
    Post (allocateWith env grow r) (fun _ t => Timed env T (s.settles r) s t) s := by
  refine Wp.bind_iff.mpr (Wp.get_iff.mpr (Wp.ite (fun _ => Wp.bind_iff.mpr trivial) fun _ => ?_))
  refine Wp.bind_iff.mpr (modifyBook_wp.mpr ?_)
  have hq := Quiet.counted s
  set b : Book := { s.book with numAllocs := s.book.numAllocs + 1 } with hb
  have hcount : Timed env T 1 s { s with book := b } := by
    refine Still.timed ⟨rfl, rfl⟩ ?_
    simp only [State.operations, hb]
    omega
  have serve : ∀ n al, Post (allocateServe env grow n al r) (fun _ t => Timed env T 0 s t)
      { s with book := b } := fun n al =>
    (allocateServe_timed (hT b hq) fun hty b' => hgrow hty b b' hq).post fun _ _ ht =>
      hcount.trans ht
  refine Wp.ite (fun h0 => ?_) fun h0 => ?_
  · split
    · exact trivial
    · next hst =>
      have hz : s.settles r = 1 := if_pos ⟨h0, by rw [hst]; decide⟩
      rw [hz]
      exact hcount
    · next hst =>
      have hz : s.settles r = 0 := if_neg fun h => h.2 hst
      rw [hz]
      exact serve _ _
    · next hst =>
      have hz : s.settles r = 1 := if_pos ⟨h0, hst⟩
      rw [hz]
      exact hcount
  · have hz : s.settles r = 0 := if_neg fun h => h0 h.1
    rw [hz]
    exact Wp.ite (fun _ => serve _ _) fun _ => trivial

end Allocate

section Deallocate

theorem freeSlot_timed {sl : Slot} :
    Post (freeSlot env i sl site) (fun _ t => Timed env T 1 s t) s := by
  have hb := tickView_blind
  have keep : ∀ {v : State}, Timed env T 1 s v → Post (do
      reduceForFree env (kB sl.internalSize)
      if (← get).keepsProtected sl (kB sl.internalSize) then protectSlot env i sl site
      else deleteSlot env i sl : M Unit) (fun _ t => Timed env T 1 s t) v := by
    intro v hv
    refine Wp.seq (leaves_post hb.reduceForFree) fun _ t ht => Wp.bind_iff.mpr (Wp.get_iff.mpr ?_)
    refine Wp.ite (fun _ => (leaves_post hb.protectSlot).post fun _ u hu => ?_)
      fun _ => (leaves_post hb.deleteSlot).post fun _ u hu => ?_
    · exact (hv.level ht).level hu
    · exact (hv.level ht).level hu
  refine Wp.bind_iff.mpr (modifyBook_wp.mpr ?_)
  refine Wp.seq (leaves_post checkSlack_leaves) fun _ t ht => Wp.bind_iff.mpr (Wp.get_iff.mpr ?_)
  have hcount : Timed env T 1 s t := by
    have : Timed env T 1 s
        { s with book := { s.book with numDeallocs := s.book.numDeallocs + 1 } } := by
      refine Still.timed ⟨rfl, rfl⟩ ?_
      simp only [State.operations]
      omega
    exact this.level ht
  refine Wp.ite (fun _ => Wp.seq (leaves_post touch_leaves) fun _ u hu => keep ?_) fun _ => keep hcount
  exact hcount.level hu

/-- A deallocation reaches the counter unless it is settled at once. -/
theorem deallocate_timed {b : Bool}
    (hT : p ≠ 0 → p ≠ s.nullAddr env → T (s.entered env b)) :
    Post (deallocate env p b allocator site) (fun _ t => Timed env T 0 s t) s := by
  refine Wp.bind_iff.mpr (Wp.get_iff.mpr (Wp.ite (fun _ => Wp.bind_iff.mpr trivial) fun _ => ?_))
  refine Wp.ite (fun _ => timed_of_view rfl) fun hp => ?_
  rw [not_or] at hp
  have hT := hT hp.1 hp.2
  have rest : ∀ {k : Unit → M Unit} (e : State), e = s.entered env b →
      e.view tickView = s.view tickView →
      (∀ t, Post (k ()) (fun _ u => u.view tickView = t.view tickView) t) → Post (do
        checkByFreq env
        let v ← slotToFree env p allocator site
        freeSlot env v.1 v.2 site
        k ()) (fun _ t => Timed env T 0 s t) e := by
    rintro k _ rfl he hk
    refine Wp.seq (checkByFreq_timed hT) ?_
    rintro _ t ⟨ht, -⟩
    refine Wp.seq (leaves_post slotToFree_leaves) fun v u hu => ?_
    refine Wp.seq (freeSlot_timed (T := T)) fun _ w hw => ?_
    refine (hk w).post fun _ x hx => ?_
    simpa using ((((timed_of_view he).trans ht).level hu).trans hw).level hx
  cases b with
  | false =>
    exact rest (k := fun _ => pure ()) s rfl rfl fun t => rfl
  | true =>
    refine Wp.seq openAllocList_timed ?_
    rintro _ t ⟨rfl, ht⟩
    exact rest (k := fun _ => closeAllocList env) _ rfl ht fun t =>
      leaves_post (closeAllocList_leaves fun _ _ _ => rfl)

end Deallocate

section Growth

/-- The states in which the operations of a growth reach the counter: that of its allocation, behind
steps that no block notices, and that of its deallocation, when the new list is in use. -/
inductive Turn (env : Env) (s : State) : State → Prop
  | inner {u : State} (h : Bases env (fun _ => False) s u) : Turn env s u
  | switched {u t : State} {i : ℕ} {l : Layout} (h : Bases env (· = s.listNeed env) s u)
      (ht : Take env (u.listNeed env) 1 (u.listRequest env) i l u t) :
      Turn env s (u.switched env t l)

theorem Turn.kept (h : Core env s) (ht : Turn env s u) : Kept env s u := by
  cases ht with
  | inner hb => exact Bases.kept (fun _ => False.elim) h hb
  | @switched u t i l hb ht =>
    have hk := Bases.kept (fun n hn => hn ▸ h.wholeList) h hb
    obtain ⟨hS, -, -⟩ := hk.core.listServed
    obtain ⟨old, new, hT⟩ := ht.taken hk.core hS
    exact hk.trans (hT.kept_switched hk.core (ht.core hk.core hS hk.core.listLike))

theorem allocateMoreSlots_timed (hs : Tidy env s) (hT : ∀ u, Turn env s u → T u) :
    Post (allocateMoreSlots env) (fun _ t => Timed env T 0 s t) s := by
  refine Wp.bind_iff.mpr (Wp.get_iff.mpr ?_)
  have halloc := allocateWith_wp (· = s.listNeed env) (pure ()) (X := Bases env)
    (A := fun _ => True) (B := False) (s := s) (r := s.listRequest env) within_bases
    (fun _ _ _ => backs_id) hs.sizeFor_list
    (fun _ => by rw [hs.sizeFor_list, hs.alignFor_list]; exact hs.listServed) False.elim hs
    False.elim (fun h => absurd rfl h) (fun b hq => ⟨fun _ _ _ _ => trivial, fun t _ _ =>
      ⟨fun _ _ _ => trivial, fun _ _ _ _ => trivial, fun _ _ => trivial⟩⟩)
    ⟨fun _ _ => trivial, fun _ _ => trivial⟩ fun _ => trivial
  have htime : Post (allocateWith env (pure ()) (s.listRequest env))
      (fun _ t => Timed env T (s.settles (s.listRequest env)) s t) s :=
    allocateWith_timed (fun b hq => hT _ (.inner hq.bases)) fun h => absurd rfl h
  have hz : s.settles (s.listRequest env) = 0 := if_neg fun h => hs.listRequest_ne h.1
  rw [hz] at htime
  refine Wp.seq ((halloc.and htime).mono (fun _ _ => id) fun _ _ _ => trivial) ?_
  rintro p t ⟨ht, htt⟩
  refine Wp.ite (fun _ => htt) fun hp => ?_
  refine Wp.seq memcpyAccess_post ?_
  rintro _ t ⟨rfl, -⟩
  refine Wp.bind_iff.mpr (touch_wp (fun _ => ?_) fun _ => trivial)
  refine Wp.bind_iff.mpr (Wp.modify_iff.mpr ?_)
  have hswitch : T (State.switchList env t p (s.listRequest env).userSize) := by
    cases ht with
    | null _ h0 => exact absurd h0 hs.listRequest_ne
    | @served b u hq hh ht =>
      have hb : Bases env (fun _ => False) s { s with book := b } := hq.bases
      rw [hs.sizeFor_list, hs.alignFor_list] at hh
      have ht : t = u := by rw [ht]; exact if_neg (by simp [State.listRequest])
      subst ht
      cases hh.of_steps within_bases hb with
      | none _ hz => exact absurd hz hp
      | @some i l u h hT' hp =>
        obtain ⟨-, h2⟩ := Bases.allocList h
        have hreq : u.listRequest env = s.listRequest env := State.listRequest_congr h2
        have hneed : u.listNeed env = s.listNeed env := State.listNeed_congr h2
        rw [← hneed, ← hreq] at hT'
        subst hp
        rw [← hreq]
        exact hT _ (.switched h hT')
  have hlevel : Timed env T 0 s (State.switchList env t p (s.listRequest env).userSize) :=
    htt.level rfl
  refine (deallocate_timed (b := false) fun _ _ => hswitch).post fun _ v hv => ?_
  simpa using hlevel.trans hv

/-- An allocation of the program, with the operations of a growth inside. -/
theorem allocate_timed (hs : Tidy env s)
    (hT : ∀ b u, Quiet s b →
      Turn env (State.entered env r.protectAllocList { s with book := b }) u → T u) :
    Post (allocate env r) (fun _ t => Timed env T (s.settles r) s t) s := by
  refine allocateWith_timed (fun b hq => hT b _ hq (.inner .refl)) fun _ b b' hq hq' => ?_
  have he : Tidy env (State.entered env r.protectAllocList { s with book := b }) :=
    hs.silents ((hq.silents : Silents env (fun _ => False) s _).trans silents_entered)
  refine allocateMoreSlots_timed (he.withBook b') fun u hu => hT b u hq ?_
  have hb : Bases env (fun _ => False) (State.entered env r.protectAllocList { s with book := b })
      { State.entered env r.protectAllocList { s with book := b } with book := b' } := hq'.bases
  cases hu with
  | inner h => exact .inner (hb.trans h)
  | switched h ht => exact .switched ((Bases.mono (fun _ => False.elim) hb).trans h) ht

end Growth

end Duma

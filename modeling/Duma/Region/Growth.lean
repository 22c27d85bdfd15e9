import Duma.Region.Release

/-! # Growth of the slot list and the inner steps

Moving the slot list takes a slot, switches to the copied list and releases the old one. Like the
atomic steps, this keeps the slot invariant, the access to the list and the program's blocks.
-/

namespace Duma

variable {env : Env} {ok : ℕ → Prop} {s s' s'' : State} {i j a n x : ℕ} {sl new : Slot} {p : Page}

def State.listNeed (env : Env) (s : State) : ℕ :=
  internalSizeFor env 1 (s.listRequest env).userSize

theorem State.listRequest_congr (h : s'.allocListSize = s.allocListSize) :
    s'.listRequest env = s.listRequest env := by
  rw [State.listRequest, State.listRequest, h]

theorem State.listNeed_congr (h : s'.allocListSize = s.allocListSize) :
    s'.listNeed env = s.listNeed env := by
  rw [State.listNeed, State.listNeed, State.listRequest_congr h]

section Switch

variable (h : Core env s)
include h

theorem Core.listServed :
    Served env (s.listNeed env) 1 (s.listRequest env) ∧
      (s.listRequest env).userSize = s.allocListSize + env.pageSize ∧
      env.pageSize ∣ s.allocListSize := by
  obtain ⟨l, sl, -, -, hr, -, hd, hpos, hle⟩ := h.list_slot
  have := hr.le
  have := env.taskSize_le
  have hP := env.pageSize_pos
  have hPl := env.pageSize_lt
  have hus : (s.listRequest env).userSize = s.allocListSize + env.pageSize :=
    Word.add_eq (by omega)
  refine ⟨.pos ⟨⟨0, rfl⟩, by omega, by omega⟩ rfl, hus, hd⟩

theorem Core.listLike : (s.listRequest env).ListLike env 1 := fun _ => by
  obtain ⟨-, hus, hd⟩ := h.listServed
  have hP := env.pageSize_pos
  refine ⟨rfl, rfl, rfl, by omega, ?_⟩
  rw [hus]
  exact Nat.dvd_add hd dvd_rfl

omit h in
theorem State.switchList_slot (a n k : ℕ) :
    (∀ sl, s.slots[k]? = some sl → (s.switchList env a n).slots[k]? = some sl) ∧
    ∀ sl, (s.switchList env a n).slots[k]? = some sl → s.slots[k]? = some sl ∨ sl = Slot.zero := by
  have he : (s.switchList env a n).slots = s.slots ++ List.replicate env.slotsPerPage Slot.zero := by
    simp only [State.switchList]
  rw [he]
  constructor
  · intro sl hk
    rw [List.getElem?_append_left (List.getElem?_eq_some_iff.mp hk).1, hk]
  · intro sl hk
    rcases Nat.lt_or_ge k s.slots.length with hlt | hge
    · rw [List.getElem?_append_left hlt] at hk
      exact Or.inl hk
    · rw [List.getElem?_append_right hge, List.getElem?_replicate] at hk
      split at hk
      · cases hk; exact Or.inr rfl
      · cases hk

theorem Core.switchList (hi : s.slots[i]? = some sl) (hs : sl.state = .inUse)
    (ha : sl.allocator = .intAlloc) : Core env (s.switchList env sl.userAddress sl.userSize) := by
  have hslot := fun k => @State.switchList_slot env s sl.userAddress sl.userSize k
  have hpart : Ownership (s.switchList env sl.userAddress sl.userSize).Owns (s.heldMem env) := by
    refine h.part.congr (fun k x => ⟨?_, ?_⟩) fun _ => Iff.rfl
    · rintro ⟨sl', hk, hne, hx⟩
      rcases (hslot k).2 sl' hk with hk' | rfl
      · exact ⟨sl', hk', hne, hx⟩
      · exact absurd rfl hne
    · rintro ⟨sl', hk, hne, hx⟩
      exact ⟨sl', (hslot k).1 sl' hk, hne, hx⟩
  refine ⟨fun k sl' hk => ?_, hpart, h.mapped, h.null, h.null_pos, i, sl, (hslot i).1 sl hi, hs, ha,
    rfl, rfl⟩
  rcases (hslot k).2 sl' hk with hk' | rfl
  · exact h.slot hk'
  · exact .empty rfl rfl rfl rfl rfl rfl

omit h in
theorem State.keeps_switchList (a n : ℕ) : Keeps env s (s.switchList env a n) where
  slot k sl hk _ := (State.switchList_slot a n k).1 sl hk
  back k sl hk hu := by
    rcases (State.switchList_slot a n k).2 sl hk with hk' | rfl
    · exact hk'
    · cases hu.1
  page _ _ _ _ _ _ := rfl
  mem _ _ _ _ _ _ := rfl

end Switch

def Site.growth : Site := ⟨some "duma.c", 1259⟩

/-- The slot list is moved to a larger block and the old one is released. -/
inductive Growth (env : Env) (s s' : State) : Prop
  /-- the inner parts of the allocation, the slot taken, the copied list in use, the inner parts of
  the deallocation, the old list's slot released -/
  | moved {s₁ s₂ s₄ : State} {i j : ℕ} {l : Layout} {sl : Slot}
      (h₁ : Bases env (· = s.listNeed env) s s₁)
      (ht : Take env (s₁.listNeed env) 1 (s₁.listRequest env)
        i l s₁ s₂)
      (hsize : s₁.allocListSize < 2 ^ 32) (hz : l.userAddr ≠ 0)
      (h₃ : Bases env (fun _ => False) (s₂.switchList env l.userAddr (s₁.listRequest env).userSize) s₄)
      (hj : s₄.slots[j]? = some sl) (hu : sl.userAddress = s₁.allocList) (h0 : s₁.allocList ≠ 0)
      (hp : ¬ sl.IsProtected) (ha : sl.allocator.type = .internal)
      (hr : Release env j sl Site.growth s₄ s')
  /-- the address of the old list is one that is never freed -/
  | stuck {s₁ s₂ : State} {i : ℕ} {l : Layout} (h₁ : Bases env (· = s.listNeed env) s s₁)
      (ht : Take env (s₁.listNeed env) 1 (s₁.listRequest env)
        i l s₁ s₂)
      (hsize : s₁.allocListSize < 2 ^ 32) (hz : l.userAddr ≠ 0)
      (ho : s₁.allocList = 0 ∨ s₁.allocList = s₁.nullAddr env)
      (he : s' = s₂.switchList env l.userAddr (s₁.listRequest env).userSize)
  /-- the address of the new list looks like a failure -/
  | lost {s₁ : State} {i : ℕ} {l : Layout} (h₁ : Bases env (· = s.listNeed env) s s₁)
      (ht : Take env (s₁.listNeed env) 1 (s₁.listRequest env) i l s₁ s') (h0 : l.userAddr = 0)

/-- A step inside the allocator: an atomic one or a move of the slot list. -/
inductive Inner (env : Env) (ok : ℕ → Prop) (s s' : State) : Prop
  | base (h : Base env ok s s')
  | growth (h : Growth env s s')

abbrev Inners (env : Env) (ok : ℕ → Prop) : State → State → Prop :=
  Relation.ReflTransGen (Inner env ok)

def WholePages (env : Env) (n : ℕ) : Prop := 0 < n ∧ env.pageSize ∣ n

/-- What holds of a state reached by inner steps when it held at their start. -/
structure Kept (env : Env) (s s' : State) : Prop where
  core : Core env s'
  keeps : Keeps env s s'
  «open» : Open env s → Open env s'
  same : Same s s'

theorem Kept.refl (h : Core env s) : Kept env s s := ⟨h, Keeps.refl s, id, Same.refl s⟩

theorem Kept.trans (h : Kept env s s') (h' : Kept env s' s'') : Kept env s s'' :=
  ⟨h'.core, h.keeps.trans h'.keeps, fun hO => h'.open (h.open hO), h.same.trans h'.same⟩

theorem Base.kept (hok : ∀ n, ok n → WholePages env n) (hc : Core env s)
    (h : Base env ok s s') : Kept env s s' :=
  ⟨h.core hok hc, h.keeps hc, h.open hc, h.same⟩

theorem Bases.kept (hok : ∀ n, ok n → WholePages env n) (hc : Core env s)
    (h : Bases env ok s s') : Kept env s s' :=
  ⟨Bases.core h hok hc, Bases.keeps h hok hc, Bases.open h hok hc, Bases.same h⟩

theorem Kept.withBook (h : Kept env s s') (b : Book) (hd : b.semDepth = s'.book.semDepth) :
    Kept env s { s' with book := b } :=
  ⟨h.core.of_book, ⟨h.keeps.slot, h.keeps.back, h.keeps.page, h.keeps.mem⟩, h.open,
    ⟨h.same.cfg, h.same.tls, h.same.initDone, h.same.nullBlock, hd.trans h.same.semDepth⟩⟩

theorem Core.keptDropped (h : Core env s) (hi : s.slots[i]? = some sl) (hs : sl.state ≠ .empty)
    (hu : ¬ sl.IsUser) (hl : ¬ sl.IsList s) : Kept env s (s.dropped env i sl p) := by
  have hloc : Local env (· = i) sl.Owns s (s.dropped env i sl p) := Local.dropped h hi hs
  refine ⟨h.dropped hi hs hl, hloc.keeps h ?_ ?_, fun hO x hx1 hx2 => ?_,
    (Same.deleted _ _ _ _).trans (Same.putSlot _ _ _)⟩
  · rintro k sl' rfl hk
    rw [hi] at hk
    cases hk
    exact hu
  · rintro k sl' rfl hk hu'
    rw [State.dropped, State.getElem?_putSlot (s := s.deleted env _ _ p) hi, if_pos rfl] at hk
    cases hk
    cases hu'.1
  · obtain ⟨lst, sl', hl', hL, hown⟩ := h.owns_list
    rw [State.dropped, State.putSlot_allocList] at hx1
    rw [State.dropped, State.putSlot_allocList, State.putSlot_allocListSize] at hx2
    rw [hloc.page fun hR => ?_]
    · exact hO x hx1 hx2
    · obtain rfl : lst = i := hloc.inside hR (hown x hx1 hx2)
      rw [hi] at hl'
      cases hl'
      exact hl hL

theorem Core.wholeList (h : Core env s) : WholePages env (s.listNeed env) := h.listServed.1.pos_dvd

def State.switched (env : Env) (s s' : State) (l : Layout) : State :=
  s'.switchList env l.userAddr (s.listRequest env).userSize

/-- The stages of a growth under the slot invariant: what `s₁`, `s₂` and `s₄` are in `Growth`. -/
structure Move (env : Env) (s s₁ s₂ s₄ s' : State) (i j : ℕ) (l : Layout) (old new sl : Slot)
    (p : Page) (b : Book) : Prop where
  before : Bases env (· = s.listNeed env) s s₁
  core₁ : Core env s₁
  take : Take env (s₁.listNeed env) 1 (s₁.listRequest env) i l s₁ s₂
  taken : Taken env (s₁.listNeed env) 1 (s₁.listRequest env) i l s₁ s₂ old new
  size : s₁.allocListSize < 2 ^ 32
  core₂ : Core env s₂
  core₃ : Core env (s₁.switched env s₂ l)
  after : Bases env (fun _ => False) (s₁.switched env s₂ l) s₄
  core₄ : Core env s₄
  /-- slot `j` is the one of the old list -/
  list : sl.IsList s₁
  slot₁ : s₁.slots[j]? = some sl
  slot₄ : s₄.slots[j]? = some sl
  ne : j ≠ i
  not_list : ¬ sl.IsList s₄
  page : p ≠ .readWrite
  eq : s' = { s₄.dropped env j sl p with book := b }
  unUsed : b.unUsedSlots = Word.add s₄.book.unUsedSlots 1
  semDepth : b.semDepth = s₄.book.semDepth
  allocated : b.sumAllocatedMem = s₄.book.sumAllocatedMem - kB sl.internalSize
  «protected» : b.sumProtectedMem = s₄.book.sumProtectedMem

namespace Taken

variable {i : ℕ} {l : Layout} {s₁ s₂ : State} {slo : Slot}

theorem switched (hT : Taken env (s₁.listNeed env) 1 (s₁.listRequest env) i l s₁ s₂ slo new)
    (hc : Core env s₂) : Core env (s₁.switched env s₂ l) := by
  have hi : s₂.slots[i]? = some new := by rw [hT.slot, if_pos rfl]
  have hlist := hc.switchList hi hT.state_eq (by rw [hT.allocator_eq]; rfl)
  have hu : new.userAddress = l.userAddr := by rw [hT.new_eq]; rfl
  have hn : new.userSize = (s₁.listRequest env).userSize := by rw [hT.new_eq]; rfl
  rwa [hu, hn] at hlist

theorem kept_switched (hT : Taken env (s₁.listNeed env) 1 (s₁.listRequest env) i l s₁ s₂ slo new)
    (hc₁ : Core env s₁) (hc : Core env s₂) : Kept env s₁ (s₁.switched env s₂ l) := by
  have hu : new.userAddress = l.userAddr := by rw [hT.new_eq]; rfl
  have hn : new.userSize = (s₁.listRequest env).userSize := by rw [hT.new_eq]; rfl
  obtain ⟨hf1, hf2, hf3, hf4, hf5, -, -⟩ := hT.frame
  refine ⟨hT.switched hc, (hT.keeps hc₁ (Or.inr (Or.inl rfl)) rfl).trans
    (State.keeps_switchList _ _), fun _ x hx1 hx2 => ?_, ⟨hf1, hf2, hf4, hf5, by rw [← hf3]; rfl⟩⟩
  refine hT.live (hT.placed.live_of_inBlock hT.region' ⟨?_, ?_⟩)
  · exact hu ▸ hx1
  · rw [hu, hn]; exact hx2

end Taken

theorem Growth.move (h : Core env s) (hg : Growth env s s') :
    ∃ s₁ s₂ s₄ i j l old new sl p b, Move env s s₁ s₂ s₄ s' i j l old new sl p b := by
  have taken : ∀ {s₁ s₂ : State} {i : ℕ} {l : Layout}, Bases env (· = s.listNeed env) s s₁ →
      Take env (s₁.listNeed env) 1 (s₁.listRequest env) i l s₁ s₂ →
      Core env s₁ ∧ ∃ old new,
        Taken env (s₁.listNeed env) 1 (s₁.listRequest env) i l s₁ s₂ old new ∧ Core env s₂ := by
    intro s₁ s₂ i l h₁ ht
    have hc₁ := Bases.core h₁ (fun n hn => hn ▸ h.wholeList) h
    obtain ⟨hS, -, -⟩ := hc₁.listServed
    obtain ⟨old, new, hT⟩ := ht.taken hc₁ hS
    exact ⟨hc₁, old, new, hT, ht.core hc₁ hS hc₁.listLike⟩
  cases hg with
  | @moved s₁ s₂ s₄ i j l sl h₁ ht hsize hz h₃ hj hu h0 hp ha hr =>
    obtain ⟨hc₁, old, new, hT, hc₂⟩ := taken h₁ ht
    have hc₃ := hT.switched hc₂
    have hc₄ := Bases.core h₃ (fun _ => False.elim) hc₃
    obtain ⟨lst, sl', hl', hL', -⟩ := hc₁.list_slot
    have hne : lst ≠ i := by
      rintro rfl
      have ho := hT.old
      rw [hl'] at ho
      cases ho
      have := hT.free
      rw [hL'.state] at this; cases this
    have hl₂ : s₂.slots[lst]? = some sl' := by rw [hT.slot, if_neg (Ne.symm hne), hl']
    have hl₄ : s₄.slots[lst]? = some sl' :=
      (Bases.inUse h₃ (fun _ => False.elim) hc₃ hL'.state).mpr ((State.switchList_slot _ _ _).1 _ hl₂)
    obtain rfl : j = lst := hc₄.eq_of_user hj hl₄ (hu.trans hL'.user.symm) (hu ▸ h0)
    obtain rfl : sl = sl' := Option.some.inj (hj.symm.trans hl₄)
    have hL : ¬ sl.IsList s₄ := fun hL => by
      have hi₂ : s₂.slots[i]? = some new := by rw [hT.slot, if_pos rfl]
      refine hne (hc₂.eq_of_user hl₂ hi₂ ?_ (hu ▸ h0))
      rw [hL.user, (Bases.allocList h₃).1, hT.new_eq]
      rfl
    cases hr with
    | guard hk => exact absurd hL'.allocator (State.keepsProtected_allocator hk)
    | @delete p hpage b hu hd ha hp =>
      exact ⟨s₁, s₂, s₄, i, j, l, old, new, sl, p, b, h₁, hc₁, ht, hT, hsize, hc₂, hc₃, h₃, hc₄, hL',
        hl', hj, hne, hL, hpage, rfl, hu, hd, ha, hp⟩
  | @stuck s₁ s₂ i l h₁ ht hsize hz ho he =>
    obtain ⟨hc₁, -⟩ := taken h₁ ht
    exfalso
    rcases ho with ho | ho
    · exact hc₁.allocList_pos.ne' ho
    · obtain ⟨lst, sl', hl', hL', hown⟩ := hc₁.owns_list
      obtain ⟨-, -, -, -, -, -, -, hpos, -⟩ := hc₁.list_slot
      have hP := env.pageSize_pos
      refine hc₁.not_null_of_owns (hown s₁.allocList le_rfl (by omega)) ?_
      rw [ho]
      unfold State.InNull State.nullAddr
      omega
  | @lost s₁ i l h₁ ht h0 =>
    obtain ⟨-, old, new, hT, -⟩ := taken h₁ ht
    have hown := hT.placed.owns_user hT.region'
    have hpos := hT.region'.pos
    have hu : new.userAddress = l.userAddr := by rw [hT.new_eq]; rfl
    exact absurd hown.1 (by omega)

theorem Move.kept {s₁ s₂ s₄ : State} {l : Layout} {old : Slot} {b : Book} (h : Core env s)
    (m : Move env s s₁ s₂ s₄ s' i j l old new sl p b) : Kept env s s' := by
  have hk₁ := Bases.kept (fun n hn => hn ▸ h.wholeList) h m.before
  have hk₃ := m.taken.kept_switched m.core₁ m.core₂
  have hk₄ := Bases.kept (fun _ => False.elim) m.core₃ m.after
  have hk := m.core₄.keptDropped (p := p) m.slot₄ (by rw [m.list.state]; nofun)
    (fun hu => hu.2 (by rw [m.list.allocator]; rfl)) m.not_list
  rw [m.eq]
  refine hk₁.trans (hk₃.trans (hk₄.trans (hk.withBook b ?_)))
  rw [m.semDepth, State.dropped, State.putSlot_book]
  rfl

theorem Growth.kept (h : Core env s) (hg : Growth env s s') : Kept env s s' := by
  obtain ⟨s₁, s₂, s₄, i, j, l, old, new, sl, p, b, m⟩ := hg.move h
  exact m.kept h

theorem Inner.kept (hok : ∀ n, ok n → WholePages env n) (h : Core env s)
    (hi : Inner env ok s s') : Kept env s s' := by
  cases hi with
  | base hb => exact hb.kept hok h
  | growth hg => exact hg.kept h

theorem Inners.kept (hok : ∀ n, ok n → WholePages env n) (h : Core env s)
    (hi : Inners env ok s s') : Kept env s s' := by
  induction hi with
  | refl => exact Kept.refl h
  | tail _ hs ih => exact ih.trans (hs.kept hok ih.core)

end Duma

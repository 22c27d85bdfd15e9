import Duma.Region.Take

/-! # What atomic steps leave alone

An atomic step changes a slot or two that are not in use, and their memory. So the list stays
accessible and the program's blocks are not touched; the same holds of a slot that the allocator
takes for itself.
-/

namespace Duma

variable {env : Env} {ok : ℕ → Prop} {s s' s'' : State} {i j a n x : ℕ} {sl new : Slot} {p : Page}

structure Same (s s' : State) : Prop where
  cfg : s'.cfg = s.cfg
  tls : s'.tls = s.tls
  initDone : s'.initDone = s.initDone
  nullBlock : s'.nullBlock = s.nullBlock
  semDepth : s'.book.semDepth = s.book.semDepth

theorem Same.refl (s : State) : Same s s := ⟨rfl, rfl, rfl, rfl, rfl⟩

theorem Same.trans (h : Same s s') (h' : Same s' s'') : Same s s'' :=
  ⟨h'.cfg.trans h.cfg, h'.tls.trans h.tls, h'.initDone.trans h.initDone,
    h'.nullBlock.trans h.nullBlock, h'.semDepth.trans h.semDepth⟩

theorem Same.putSlot (s : State) (i : ℕ) (sl : Slot) : Same s (s.putSlot i sl) :=
  ⟨State.putSlot_cfg, State.putSlot_tls, State.putSlot_initDone, State.putSlot_nullBlock,
    by rw [State.putSlot_book]⟩

theorem Same.deleted (s : State) (a n : ℕ) (p : Page) : Same s (s.deleted env a n p) :=
  ⟨rfl, rfl, rfl, rfl, rfl⟩

theorem Same.created (s : State) (a n : ℕ) : Same s (s.created env a n) :=
  ⟨rfl, rfl, rfl, rfl, rfl⟩

theorem Same.withUnused (s : State) (u : ℕ) : Same s { s with book := s.book.withUnused u } :=
  ⟨rfl, rfl, rfl, rfl, rfl⟩

theorem Same.useSlot (s : State) : Same s s.useSlot := Same.withUnused s _

theorem Same.unuseSlot (s : State) : Same s s.unuseSlot := Same.withUnused s _

section LocalRules

theorem Local.putSlot (hi : s.slots[i]? = some sl) :
    Local env (· = i) (fun _ => False) s (s.putSlot i new) where
  slot k sl' hk h := by rw [State.getElem?_putSlot hi, if_neg (Ne.symm hk), h]
  back k sl' hk h _ := by rwa [State.getElem?_putSlot hi, if_neg (Ne.symm hk)] at h
  page _ _ := State.putSlot_page
  mem _ _ := by rw [State.putSlot_mem]
  inside _ _ h := h.elim

theorem Local.giveUp {v : Slot} (h : Core env s) (hi : s.slots[i]? = some sl) (ha : env.pageSize ∣ a)
    (hin : ∀ x, a ≤ x → x < a + env.roundUp n → sl.Owns x) :
    Local env (· = i) (fun x => a ≤ x ∧ x < a + env.roundUp n) s
      ((s.deleted env a n p).putSlot i v) where
  slot k sl' hk h := by
    rw [State.getElem?_putSlot (s := s.deleted env a n p) hi, if_neg (Ne.symm hk)]; exact h
  back k sl' hk h _ := by
    rwa [State.getElem?_putSlot (s := s.deleted env a n p) hi, if_neg (Ne.symm hk)] at h
  page x hx := by rw [State.putSlot_page, State.deleted_page ha, if_neg hx]
  mem x _ := by rw [State.putSlot_mem]; rfl
  inside x k hx hk := h.part.unique hk (h.owns hi (hin x hx.1 hx.2))

theorem Local.gain (h : Core env s) (hi : s.slots[i]? = some sl) (hg : s.Granted env a n) :
    Local env (· = i) (fun x => a ≤ x ∧ x < a + env.roundUp n) s
      ((s.created env a n).putSlot i new) where
  slot k sl' hk h := by
    rw [State.getElem?_putSlot (s := s.created env a n) hi, if_neg (Ne.symm hk)]; exact h
  back k sl' hk h _ := by
    rwa [State.getElem?_putSlot (s := s.created env a n) hi, if_neg (Ne.symm hk)] at h
  page x hx := by rw [State.putSlot_page, State.created_page hg.dvd, if_neg hx]
  mem x hx := by
    rw [State.putSlot_mem]
    exact if_neg hx
  inside x k hx hk := absurd (hg.fresh x hx.1 hx.2) (h.mapped (h.held_of_owns hk))

theorem Local.trans_empty {I : ℕ → Prop} (h : Local env I (fun _ => False) s s')
    (h' : Local env I (fun _ => False) s' s'') : Local env I (fun _ => False) s s'' where
  slot _ _ hk hs := h'.slot hk (h.slot hk hs)
  back _ _ hk hs he := h.back hk (h'.back hk hs he) he
  page _ hx := (h'.page hx).trans (h.page hx)
  mem _ hx := (h'.mem hx).trans (h.mem hx)
  inside _ _ hx := hx.elim

theorem Local.weaken {I J R : ℕ → Prop} (h : Local env I R s s') (hIJ : ∀ k, I k → J k) :
    Local env J R s s' where
  slot _ _ hk hs := h.slot (fun hI => hk (hIJ _ hI)) hs
  back _ _ hk hs he := h.back (fun hI => hk (hIJ _ hI)) hs he
  page _ hx := h.page hx
  mem _ hx := h.mem hx
  inside _ _ hx ho := hIJ _ (h.inside hx ho)

theorem Local.withBook {I R : ℕ → Prop} (h : Local env I R s s') (b : Book) :
    Local env I R s { s' with book := b } :=
  ⟨h.slot, h.back, h.page, h.mem, h.inside⟩

theorem Local.splitAt {e : Slot} (hi : s.slots[i]? = some sl) (hj : s.slots[j]? = some e) :
    Local env (fun k => k = i ∨ k = j) (fun _ => False) s (s.splitAt i sl j n) := by
  have h1 : Local env (fun k => k = i ∨ k = j) (fun _ => False) s (s.putSlot j (sl.surplus n)) :=
    (Local.putSlot hj).weaken fun _ => Or.inr
  refine h1.trans_empty (Local.weaken ?_ fun _ => Or.inl)
  have : i < s.slots.length := (List.getElem?_eq_some_iff.mp hi).1
  have hi' : ∃ sl', (s.putSlot j (sl.surplus n)).slots[i]? = some sl' := by
    rw [State.getElem?_putSlot hj]
    split
    exacts [⟨_, rfl⟩, ⟨_, hi⟩]
  exact Local.putSlot hi'.choose_spec

end LocalRules

section Atomic

theorem Evict.same (h : Evict env s s') : Same s s' := by
  cases h with
  | quiet b hb => exact ⟨rfl, rfl, rfl, rfl, hb.semDepth⟩
  | shrink => exact (Same.deleted _ _ _ _).trans (Same.putSlot _ _ _)
  | drop => exact (Same.deleted _ _ _ _).trans (Same.putSlot _ _ _)

theorem Evicts.same (h : Evicts env s s') : Same s s' := by
  induction h with
  | refl => exact Same.refl s
  | tail _ hs ih => exact ih.trans hs.same

theorem Evict.allocList (h : Evict env s s') :
    s'.allocList = s.allocList ∧ s'.allocListSize = s.allocListSize := by
  cases h with
  | quiet => exact ⟨rfl, rfl⟩
  | shrink => exact ⟨State.putSlot_allocList, State.putSlot_allocListSize⟩
  | drop => exact ⟨State.putSlot_allocList, State.putSlot_allocListSize⟩

theorem Evicts.allocList (h : Evicts env s s') :
    s'.allocList = s.allocList ∧ s'.allocListSize = s.allocListSize := by
  induction h with
  | refl => exact ⟨rfl, rfl⟩
  | tail _ hs ih => exact ⟨hs.allocList.1.trans ih.1, hs.allocList.2.trans ih.2⟩

/-- A step that touches no slot in use and no memory of such a slot. -/
def Framed (env : Env) (s s' : State) : Prop :=
  ∃ I R, Local env I R s s' ∧
    (∀ (k : ℕ) (sl : Slot), I k → s.slots[k]? = some sl → sl.state ≠ .inUse) ∧
    ∀ (k : ℕ) (sl : Slot), I k → s'.slots[k]? = some sl → sl.state ≠ .inUse

theorem Framed.withBook (h : Framed env s s') (b : Book) :
    Framed env s { s' with book := b } := by
  obtain ⟨I, R, hl, ho, hn⟩ := h
  exact ⟨I, R, hl.withBook b, ho, hn⟩

theorem Framed.book (s : State) (b : Book) : Framed env s { s with book := b } :=
  ⟨fun _ => False, fun _ => False, ⟨fun _ _ _ h => h, fun _ _ _ h _ => h, fun _ _ => rfl,
    fun _ _ => rfl, fun _ _ h => h.elim⟩, fun _ _ h => h.elim, fun _ _ h => h.elim⟩

theorem Framed.one {t : State} {R : ℕ → Prop}
    (hl : Local env (· = i) R s (t.putSlot i new)) (ht : t.slots = s.slots)
    (hi : s.slots[i]? = some sl) (hs : sl.state ≠ .inUse) (hnew : new.state ≠ .inUse) :
    Framed env s (t.putSlot i new) := by
  refine ⟨_, _, hl, ?_, ?_⟩
  · rintro k sl' rfl hk
    rw [hi] at hk
    cases hk
    exact hs
  · rintro k sl' rfl hk
    rw [State.getElem?_putSlot (ht ▸ hi), if_pos rfl] at hk
    cases hk
    exact hnew

theorem Framed.inUse {k : ℕ} (h : Framed env s s') (hs : sl.state = .inUse) :
    s'.slots[k]? = some sl ↔ s.slots[k]? = some sl := by
  obtain ⟨I, R, hl, ho, hn⟩ := h
  constructor
  · exact fun hk => hl.back (fun hI => hn k sl hI hk hs) hk (by rw [hs]; nofun)
  · exact fun hk => hl.slot (fun hI => ho k sl hI hk hs) hk

theorem Framed.keeps (h : Framed env s s') (hc : Core env s) : Keeps env s s' := by
  obtain ⟨I, R, hl, ho, hn⟩ := h
  exact hl.keeps hc (fun k sl hI hk hu => ho k sl hI hk hu.1) fun k sl hI hk hu => hn k sl hI hk hu.1

theorem Framed.open (h : Framed env s s') (hc : Core env s)
    (hlist : s'.allocList = s.allocList ∧ s'.allocListSize = s.allocListSize)
    (hO : Open env s) : Open env s' := by
  obtain ⟨I, R, hl, ho, -⟩ := h
  obtain ⟨l, sl, hl', hL, hown⟩ := hc.owns_list
  obtain ⟨h1, h2⟩ := hlist
  intro x hx1 hx2
  rw [h1] at hx1
  rw [h1, h2] at hx2
  rw [hl.page fun hR => ho l sl (hl.inside hR (hown x hx1 hx2)) hl' hL.state]
  exact hO x hx1 hx2

theorem Evict.framed (hc : Core env s) (h : Evict env s s') : Framed env s s' := by
  cases h with
  | quiet b => exact Framed.book s b
  | @shrink i sl p hi hs hp =>
    have hr := (hc.slot hi).region (by rw [hs]; nofun)
    have hu := (hc.slot hi).owns_of_protected (Or.inl hs)
    obtain ⟨h1, h2, h3⟩ := Slot.keptSize_spec hr hu
    obtain ⟨hw1, hw2⟩ := Slot.kept_word hr hu
    refine Framed.one (Local.giveUp hc hi ?_ ?_) rfl hi (by rw [hs]; nofun) (by simp)
    · rw [hw1]
      exact Nat.dvd_add hr.dvd h1
    · rw [hw1, hw2, Env.roundUp_of_dvd (Nat.dvd_sub hr.size_dvd h1)]
      exact fun x hx1 hx2 => ⟨by omega, by omega⟩
  | @drop i sl p hi hs hp =>
    have hr := (hc.slot hi).region (by rw [hs]; nofun)
    refine Framed.one (Local.giveUp hc hi hr.dvd ?_) rfl hi (by rw [hs]; nofun)
      (by simp [Slot.emptied])
    rw [Env.roundUp_of_dvd hr.size_dvd]
    exact fun x hx1 hx2 => ⟨hx1, hx2⟩

theorem Evicts.keeps (hc : Core env s) (h : Evicts env s s') : Keeps env s s' := by
  induction h with
  | refl => exact Keeps.refl s
  | tail h he ih => exact ih.trans ((he.framed (Evicts.core hc h)).keeps (Evicts.core hc h))

theorem Evicts.inUse {k : ℕ} (hc : Core env s) (h : Evicts env s s') (hs : sl.state = .inUse) :
    s'.slots[k]? = some sl ↔ s.slots[k]? = some sl := by
  induction h with
  | refl => exact Iff.rfl
  | tail h he ih => exact ((he.framed (Evicts.core hc h)).inUse hs).trans ih

theorem Evicts.open (hc : Core env s) (h : Evicts env s s') (hO : Open env s) : Open env s' := by
  induction h with
  | refl => exact hO
  | tail h he ih =>
    exact (he.framed (Evicts.core hc h)).open (Evicts.core hc h) he.allocList ih

theorem Keeps.withBook (h : Keeps env s s') (b : Book) : Keeps env s { s' with book := b } :=
  ⟨h.slot, h.back, h.page, h.mem⟩

theorem Keeps.log (h : Keeps env s s') (e : Event) : Keeps env s (s'.log e) :=
  ⟨h.slot, h.back, h.page, h.mem⟩

end Atomic

namespace Sweep

variable (h : Sweep env s s')
include h

theorem same : Same s s' := by
  cases h with
  | full he =>
    have hs := Evicts.same he
    exact ⟨hs.cfg, hs.tls, hs.initDone, hs.nullBlock, hs.semDepth⟩
  | short he =>
    have hs := Evicts.same he
    exact ⟨hs.cfg, hs.tls, hs.initDone, hs.nullBlock, hs.semDepth⟩

theorem allocList : s'.allocList = s.allocList ∧ s'.allocListSize = s.allocListSize := by
  cases h with
  | full he =>
    have := Evicts.allocList he
    exact this
  | short he =>
    have := Evicts.allocList he
    exact this

theorem inUse {k : ℕ} (hc : Core env s) (hs : sl.state = .inUse) :
    s'.slots[k]? = some sl ↔ s.slots[k]? = some sl := by
  cases h with
  | full he =>
    have := Evicts.inUse (k := k) hc he hs
    exact this
  | short he =>
    have := Evicts.inUse (k := k) hc he hs
    exact this

theorem keeps (hc : Core env s) : Keeps env s s' := by
  cases h with
  | full he => exact (Evicts.keeps hc he).withBook _
  | short he => exact (Evicts.keeps hc he).log _

theorem «open» (hc : Core env s) (hO : Open env s) : Open env s' := by
  cases h with
  | full he =>
    have := Evicts.open hc he hO
    exact this
  | short he =>
    have := Evicts.open hc he hO
    exact this

end Sweep

namespace Base

theorem same (h : Base env ok s s') : Same s s' := by
  cases h with
  | quiet b hb => exact ⟨rfl, rfl, rfl, rfl, hb.semDepth⟩
  | sweep hs => exact hs.same
  | gain hi hs hok hn hg b hb =>
    exact ⟨State.putSlot_cfg, State.putSlot_tls, State.putSlot_initDone, State.putSlot_nullBlock,
      hb.semDepth⟩
  | clear => exact Same.putSlot _ _ _
  | split => exact ((Same.putSlot _ _ _).trans (Same.putSlot _ _ _)).trans (Same.useSlot _)

theorem allocList (h : Base env ok s s') :
    s'.allocList = s.allocList ∧ s'.allocListSize = s.allocListSize := by
  have book : ∀ (t : State) (b : Book), t.allocList = s.allocList ∧
      t.allocListSize = s.allocListSize → ({ t with book := b } : State).allocList = s.allocList ∧
      ({ t with book := b } : State).allocListSize = s.allocListSize := fun _ _ h => h
  cases h with
  | quiet => exact ⟨rfl, rfl⟩
  | sweep hs => exact hs.allocList
  | gain => exact book _ _ ⟨State.putSlot_allocList, State.putSlot_allocListSize⟩
  | clear => exact ⟨State.putSlot_allocList, State.putSlot_allocListSize⟩
  | split =>
    exact book _ _ ⟨State.putSlot_allocList.trans State.putSlot_allocList,
      State.putSlot_allocListSize.trans State.putSlot_allocListSize⟩

theorem framed (hc : Core env s) (h : Base env ok s s') : Sweep env s s' ∨ Framed env s s' := by
  cases h with
  | quiet b => exact Or.inr (Framed.book s b)
  | sweep hs => exact Or.inl hs
  | gain hi hs _ hn hg b =>
    exact Or.inr ((Framed.one (Local.gain hc hi hg) rfl hi (by rw [hs]; nofun) (by simp)).withBook b)
  | clear hi hs =>
    exact Or.inr (Framed.one (Local.putSlot hi) rfl hi (by rw [hs]; nofun) (by simp [hs]))
  | @split i j n sl e hi hs hj he hn hn' =>
    have hij : i ≠ j := by
      rintro rfl
      rw [hi] at hj
      cases hj
      rw [hs] at he; cases he
    have hi' : (s.putSlot j (sl.surplus n)).slots[i]? = some sl := by
      rw [State.getElem?_putSlot hj, if_neg (Ne.symm hij), hi]
    refine Or.inr ⟨_, _, (Local.splitAt hi hj).withBook _, ?_, ?_⟩
    · rintro k sl' (rfl | rfl) hk
      · rw [hi] at hk
        cases hk
        rw [hs]; nofun
      · rw [hj] at hk
        cases hk
        rw [he]; nofun
    · intro k sl' hk hk'
      rw [State.useSlot_slots, State.splitAt, State.getElem?_putSlot hi',
        State.getElem?_putSlot hj] at hk'
      split at hk'
      · cases hk'
        simp only [hs]; nofun
      · next hik =>
        rw [if_pos (hk.resolve_left (Ne.symm hik)).symm] at hk'
        cases hk'
        simp only [Slot.surplus, hs]; nofun

theorem inUse {k : ℕ} (hc : Core env s) (h : Base env ok s s') (hs : sl.state = .inUse) :
    s'.slots[k]? = some sl ↔ s.slots[k]? = some sl := by
  rcases h.framed hc with h | hf
  exacts [h.inUse hc hs, hf.inUse hs]

theorem keeps (hc : Core env s) (h : Base env ok s s') : Keeps env s s' := by
  rcases h.framed hc with hs | hf
  exacts [hs.keeps hc, hf.keeps hc]

theorem «open» (hc : Core env s) (h : Base env ok s s') (hO : Open env s) : Open env s' := by
  have hlist := h.allocList
  rcases h.framed hc with hs | hf
  exacts [hs.open hc hO, hf.open hc hlist hO]

end Base

namespace Bases

variable (h : Bases env ok s s')
include h

theorem same : Same s s' := by
  induction h with
  | refl => exact Same.refl s
  | tail _ hs ih => exact ih.trans hs.same

theorem allocList : s'.allocList = s.allocList ∧ s'.allocListSize = s.allocListSize := by
  induction h with
  | refl => exact ⟨rfl, rfl⟩
  | tail _ hs ih => exact ⟨hs.allocList.1.trans ih.1, hs.allocList.2.trans ih.2⟩

theorem core (hok : ∀ n, ok n → 0 < n ∧ env.pageSize ∣ n) (hc : Core env s) : Core env s' := by
  induction h with
  | refl => exact hc
  | tail _ hs ih => exact hs.core hok ih

theorem inUse {k : ℕ} (hok : ∀ n, ok n → 0 < n ∧ env.pageSize ∣ n) (hc : Core env s)
    (hs : sl.state = .inUse) : s'.slots[k]? = some sl ↔ s.slots[k]? = some sl := by
  induction h with
  | refl => exact Iff.rfl
  | tail h hb ih => exact (hb.inUse (Bases.core h hok hc) hs).trans ih

theorem keeps (hok : ∀ n, ok n → 0 < n ∧ env.pageSize ∣ n) (hc : Core env s) :
    Keeps env s s' := by
  induction h with
  | refl => exact Keeps.refl s
  | tail h hs ih => exact ih.trans (hs.keeps (Bases.core h hok hc))

theorem «open» (hok : ∀ n, ok n → 0 < n ∧ env.pageSize ∣ n) (hc : Core env s)
    (hO : Open env s) : Open env s' := by
  induction h with
  | refl => exact hO
  | tail h hs ih => exact hs.open (Bases.core h hok hc) ih

end Bases

section Taken

variable {al : ℕ} {r : Request} {l : Layout}

theorem Taken.owns_iff (h : Taken env n al r i l s s' sl new) : new.Owns x ↔ sl.Owns x := by
  rw [h.new_eq]; rfl

theorem Taken.state_eq (h : Taken env n al r i l s s' sl new) : new.state = .inUse := by
  rw [h.new_eq]; rfl

theorem Taken.allocator_eq (h : Taken env n al r i l s s' sl new) :
    new.allocator = r.allocator := by
  rw [h.new_eq]; rfl

theorem Taken.local (h : Taken env n al r i l s s' sl new) (hc : Core env s)
    (hcont : r.Contained env al sl.internalAddress) : Local env (· = i) new.Owns s s' where
  slot k sl' hk hs := by rw [h.slot, if_neg (Ne.symm hk), hs]
  back k sl' hk hs _ := by rwa [h.slot, if_neg (Ne.symm hk)] at hs
  page x hx := h.contained hcont hx
  mem x hx := h.mem fun hs => hx (h.placed.owns_of_live h.region' hs.1)
  inside x k hx hk := hc.part.unique hk (hc.owns h.old (h.owns_iff.mp hx))

theorem Taken.keeps (h : Taken env n al r i l s s' sl new) (hc : Core env s)
    (hcont : r.Contained env al sl.internalAddress) (ha : r.allocator.type = .internal) :
    Keeps env s s' := by
  refine (h.local hc hcont).keeps hc ?_ ?_
  · rintro k sl' rfl hk hu
    rw [h.old] at hk
    cases hk
    have := h.free
    rw [hu.1] at this; cases this
  · rintro k sl' rfl hk hu
    rw [h.slot, if_pos rfl] at hk
    cases hk
    exact hu.2 (h.allocator_eq ▸ ha)

theorem Taken.open (h : Taken env n al r i l s s' sl new) (hc : Core env s) (hO : Open env s) :
    Open env s' := by
  obtain ⟨lst, sl', hl', hL, hown⟩ := hc.owns_list
  obtain ⟨-, -, -, -, -, h1, h2⟩ := h.frame
  intro x hx1 hx2
  rw [h1] at hx1
  rw [h1, h2] at hx2
  have hx : ¬ new.Owns x := fun hx => by
    have : lst = i := hc.part.unique (hown x hx1 hx2) (hc.owns h.old (h.owns_iff.mp hx))
    subst this
    have ho := h.old
    rw [hl'] at ho
    cases ho
    have := h.free
    rw [hL.state] at this; cases this
  rcases h.outside hx with he | he
  · rw [he, hO x hx1 hx2]
  · exact he

end Taken

end Duma

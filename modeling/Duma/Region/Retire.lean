import Duma.Region.Ledger

/-! # Freed memory

What any step does to freed memory: it stays inaccessible until a page creation hands it out again,
and a slot that protects it is emptied only after all its memory was given to a page deletion.
-/

namespace Duma

variable {env : Env} {ok : ℕ → Prop} {s t u : State} {i j k n al x : ℕ} {sl old new : Slot}
  {ev ev' : List Event} {R : ℕ → Prop} {p : Page} {r : Request} {l : Layout} {site : Site}
  {works : Config → Prop} {serves : ℕ → ℕ → Request → Prop} {T : Prop}

def CreatedAt (ev : List Event) (x : ℕ) : Prop := ∃ a n, .create a n ∈ ev ∧ a ≤ x ∧ x < a + n

def DeletedAt (ev : List Event) (x : ℕ) : Prop := ∃ a n, .delete a n ∈ ev ∧ a ≤ x ∧ x < a + n

theorem CreatedAt.mono (h : CreatedAt ev x) (hs : ev ⊆ ev') : CreatedAt ev' x := by
  obtain ⟨a, n, hm, hx⟩ := h
  exact ⟨a, n, hs hm, hx⟩

theorem DeletedAt.mono (h : DeletedAt ev x) (hs : ev ⊆ ev') : DeletedAt ev' x := by
  obtain ⟨a, n, hm, hx⟩ := h
  exact ⟨a, n, hs hm, hx⟩

/-- The address may not be accessed, and it is in no region but of a slot that holds freed memory. -/
structure Barred (env : Env) (s : State) (x : ℕ) : Prop where
  page : s.page env x ≠ .readWrite
  slot : ∀ ⦃k : ℕ⦄ ⦃sl : Slot⦄, s.slots[k]? = some sl → sl.Owns x → sl.IsProtected

/-- What has become of slot `k`, which protected the memory `R`, when the events had happened. -/
inductive Retired (k : ℕ) (R : ℕ → Prop) (ev : List Event) (t : State) : Prop
  /-- the slot protects what was not deleted -/
  | held {sl : Slot} (hk : t.slots[k]? = some sl) (hp : sl.IsProtected)
      (hR : ∀ x, R x → sl.Owns x ∨ DeletedAt ev x)
  /-- the slot was emptied and all its memory deleted -/
  | gone (he : .state k .beginProtected .empty ∈ ev) (hR : ∀ x, R x → DeletedAt ev x)

/-- What any step does to freed memory; the events are those that it adds to the trace. `T` says that
the requests open nothing outside their regions. -/
structure Ages (env : Env) (T : Prop) (s t : State) (ev : List Event) : Prop where
  trace : t.trace = ev ++ s.trace
  barred : T → ∀ ⦃x⦄, Barred env s x → CreatedAt ev x ∨ Barred env t x
  retired : ∀ ⦃k : ℕ⦄ ⦃sl : Slot⦄, s.slots[k]? = some sl → sl.IsProtected →
    Retired k sl.Owns ev t

def Aged (env : Env) (T : Prop) (s t : State) : Prop := ∃ ev, Ages env T s t ev

section Compose

theorem Ages.trans (h : Ages env T s t ev) (h' : Ages env T t u ev') :
    Ages env T s u (ev' ++ ev) where
  trace := by rw [h'.trace, h.trace, List.append_assoc]
  barred hT x hx := by
    have hl : ev' ⊆ ev' ++ ev := List.subset_append_left _ _
    have hr : ev ⊆ ev' ++ ev := List.subset_append_right _ _
    rcases h.barred hT hx with hc | hb
    · exact Or.inl (hc.mono hr)
    · exact (h'.barred hT hb).imp_left fun hc => hc.mono hl
  retired k sl hk hp := by
    have hl : ev' ⊆ ev' ++ ev := List.subset_append_left _ _
    have hr : ev ⊆ ev' ++ ev := List.subset_append_right _ _
    cases h.retired hk hp with
    | gone he hR => exact .gone (hr he) fun x hx => (hR x hx).mono hr
    | held hk' hp' hR =>
      cases h'.retired hk' hp' with
      | held hk'' hp'' hR' =>
        exact .held hk'' hp'' fun x hx => (hR x hx).elim
          (fun ho => (hR' x ho).imp_right fun hd => hd.mono hl) fun hd => Or.inr (hd.mono hr)
      | gone he hR' =>
        exact .gone (hl he) fun x hx => (hR x hx).elim (fun ho => (hR' x ho).mono hl)
          fun hd => hd.mono hr

theorem Ages.of_slots (hs : t.slots = s.slots) (ht : t.trace = ev ++ s.trace)
    (hp : ∀ x, Barred env s x → t.page env x ≠ .readWrite) : Ages env T s t ev where
  trace := ht
  barred _ x hx := Or.inr ⟨hp x hx, fun _ _ hk => hx.slot (hs ▸ hk)⟩
  retired _ _ hk hpr := .held (hs ▸ hk) hpr fun _ hx => Or.inl hx

theorem Ages.refl (env : Env) (T : Prop) (s : State) : Ages env T s s [] :=
  .of_slots rfl rfl fun _ hx => hx.page

theorem Aged.refl (env : Env) (T : Prop) (s : State) : Aged env T s s := ⟨[], .refl env T s⟩

theorem Aged.trans (h : Aged env T s t) (h' : Aged env T t u) : Aged env T s u := by
  obtain ⟨ev, h⟩ := h
  obtain ⟨ev', h'⟩ := h'
  exact ⟨ev' ++ ev, h.trans h'⟩

theorem Aged.of_same (hs : t.slots = s.slots) (ht : t.trace = s.trace) (hp : t.pages = s.pages) :
    Aged env T s t :=
  ⟨[], .of_slots hs ht fun x hx => by
    rw [State.page, hp]
    exact hx.page⟩

theorem Ages.barred_nil (h : Ages env True s t []) (hx : Barred env s x) : Barred env t x := by
  refine (h.barred trivial hx).resolve_left ?_
  rintro ⟨a, n, hm, -⟩
  cases hm

end Compose

section Assign

/-- The general rule for a record assigned after the pages were changed. -/
theorem Aged.put (ev : List Event) (hi : s.slots[i]? = some old) (hs : u.slots = s.slots)
    (ht : u.trace = ev ++ s.trace)
    (hpage : ∀ x, Barred env s x → CreatedAt ev x ∨ u.page env x ≠ .readWrite)
    (hown : ∀ x, Barred env s x → new.Owns x → CreatedAt ev x ∨ new.IsProtected)
    (hret : old.IsProtected → new.IsProtected ∧ (∀ x, old.Owns x → new.Owns x ∨ DeletedAt ev x) ∨
      (old.state = .beginProtected ∧ new.state = .empty) ∧ ∀ x, old.Owns x → DeletedAt ev x) :
    Aged env T s (u.putSlot i new) := by
  have hi' : u.slots[i]? = some old := hs ▸ hi
  have hget : ∀ k : ℕ, (u.putSlot i new).slots[k]? = if i = k then some new else s.slots[k]? :=
    fun k => by rw [State.getElem?_putSlot hi', hs]
  set ev₁ := if old.state = new.state then ev else .state i old.state new.state :: ev with hev
  have hsub : ev ⊆ ev₁ := by
    rw [hev]
    split
    exacts [List.Subset.refl _, List.subset_cons_self _ _]
  refine ⟨ev₁, ?_, fun _ x hx => ?_, fun k sl hk hp => ?_⟩
  · rw [State.putSlot_trace hi', hev, ht]
    split <;> rfl
  · by_cases hc : CreatedAt ev x
    · exact Or.inl (hc.mono hsub)
    refine Or.inr ⟨?_, fun k sl hk ho => ?_⟩
    · rw [State.putSlot_page]
      exact (hpage x hx).resolve_left hc
    · rw [hget] at hk
      split at hk
      · obtain rfl := Option.some.inj hk
        exact (hown x hx ho).resolve_left hc
      · exact hx.slot hk ho
  · by_cases hik : i = k
    · subst hik
      obtain rfl := Option.some.inj (hi.symm.trans hk)
      have hnew : (u.putSlot i new).slots[i]? = some new := (hget i).trans (if_pos rfl)
      rcases hret hp with ⟨hp', hR⟩ | ⟨⟨h1, h2⟩, hR⟩
      · exact .held hnew hp' fun x hx => (hR x hx).imp_right fun hd => hd.mono hsub
      · refine .gone ?_ fun x hx => (hR x hx).mono hsub
        rw [hev, h1, h2, if_neg (by decide)]
        exact List.mem_cons_self
    · exact .held ((hget k).trans ((if_neg hik).trans hk)) hp fun x hx => Or.inl hx

variable (hc : Core env s) (hi : s.slots[i]? = some sl)
include hc hi

theorem dropped_aged (hs : sl.state ≠ .empty) (hp : p ≠ .readWrite)
    (hb : sl.IsProtected → sl.state = .beginProtected) : Aged env T s (s.dropped env i sl p) := by
  have hr := (hc.slot hi).region hs
  have hround := Env.roundUp_of_dvd hr.size_dvd
  refine Aged.put (u := s.deleted env sl.internalAddress sl.internalSize p)
    [.delete sl.internalAddress (env.roundUp sl.internalSize)] hi rfl rfl
    (fun x hx => Or.inr ?_) (fun x _ ho => ?_) fun hpr => Or.inr ⟨⟨hb hpr, rfl⟩, fun x hx => ?_⟩
  · rw [State.deleted_page hr.dvd]
    split
    exacts [hp, hx.page]
  · have := ho.2
    have := ho.1
    simp only [Slot.emptied] at *
    omega
  · exact ⟨_, _, List.mem_singleton_self _, hx.1, by rw [hround]; exact hx.2⟩

theorem shrunk_aged (hs : sl.IsProtected) (hp : p ≠ .readWrite) :
    Aged env T s (s.shrunk env i sl p) := by
  have hr := (hc.slot hi).region hs.ne_empty
  have hu := (hc.slot hi).owns_of_protected hs
  obtain ⟨h1, h2, h3⟩ := Slot.keptSize_spec hr hu
  obtain ⟨hw1, hw2⟩ := Slot.kept_word hr hu
  have hround : env.roundUp (sl.internalSize - sl.keptSize env) =
      sl.internalSize - sl.keptSize env := Env.roundUp_of_dvd (Nat.dvd_sub hr.size_dvd h1)
  rw [State.shrunk, hw1, hw2]
  refine Aged.put [.delete (sl.internalAddress + sl.keptSize env)
      (env.roundUp (sl.internalSize - sl.keptSize env))] hi rfl rfl (fun x hx => Or.inr ?_)
    (fun x _ _ => Or.inr (Or.inr rfl)) fun _ => Or.inl ⟨Or.inr rfl, fun x hx => ?_⟩
  · rw [State.deleted_page (Nat.dvd_add hr.dvd h1)]
    split
    exacts [hp, hx.page]
  · rcases Nat.lt_or_ge x (sl.internalAddress + sl.keptSize env) with hlt | hge
    · exact Or.inl ⟨hx.1, hlt⟩
    · refine Or.inr ⟨_, _, List.mem_singleton_self _, hge, ?_⟩
      have := hx.2
      rw [hround]
      omega

theorem guarded_aged (hs : sl.state = .inUse) : Aged env T s (s.guarded env i sl site) := by
  have hr := (hc.slot hi).region (by rw [hs]; nofun)
  refine Aged.put (u := s.setPages env _ _ .noAccess) [] hi rfl rfl (fun x hx => Or.inr ?_)
    (fun x _ _ => Or.inr (Or.inl Slot.freedAt_state)) fun hp => ?_
  · rw [State.setPages_page hr.dvd (Nat.dvd_add hr.dvd (Env.dvd_roundUp _))]
    split
    exacts [nofun, hx.page]
  · rcases hp with hp | hp <;> rw [hs] at hp <;> cases hp

end Assign

section Steps

theorem Evict.aged (hc : Core env s) (h : Evict env s t) : Aged env T s t := by
  cases h with
  | quiet => exact .of_same rfl rfl rfl
  | shrink hi hs hp => exact shrunk_aged hc hi (Or.inl hs) hp
  | drop hi hs hp => exact dropped_aged hc hi (by rw [hs]; nofun) hp fun _ => hs

theorem Evicts.aged (hc : Core env s) (h : Evicts env s t) : Aged env T s t := by
  induction h with
  | refl => exact .refl env T s
  | tail h he ih => exact ih.trans (he.aged (Evicts.core hc h))

theorem Sweep.aged (hc : Core env s) (h : Sweep env s t) : Aged env T s t := by
  cases h with
  | full he => exact (Evicts.aged hc he).trans (.of_same rfl rfl rfl)
  | short he => exact (Evicts.aged hc he).trans ⟨[_], .of_slots rfl rfl fun _ hx => hx.page⟩

theorem gained_aged {a : ℕ} (hi : s.slots[i]? = some sl) (hs : sl.state = .empty)
    (hn : env.pageSize ∣ n) (hg : s.Granted env a n) : Aged env T s (s.gained env i sl a n) := by
  have hround := Env.roundUp_of_dvd hn
  have hin : ∀ x, a ≤ x → x < a + n → CreatedAt [.create a (env.roundUp n)] x := fun x h1 h2 =>
    ⟨_, _, List.mem_singleton_self _, h1, by rw [hround]; exact h2⟩
  refine Aged.put (u := s.created env a n) [.create a (env.roundUp n)] hi rfl rfl
    (fun x hx => ?_) (fun x _ ho => Or.inl (hin x ho.1 ho.2)) fun hp => absurd hs hp.ne_empty
  have hpage := State.created_page (s := s) (n := n) (x := x) hg.dvd
  rw [hpage]
  simp only [hround] at hin ⊢
  split
  · next h => exact Or.inl (hin x h.1 h.2)
  · exact Or.inr hx.page

theorem splitAt_aged {e : Slot} (hc : Core env s) (hi : s.slots[i]? = some sl)
    (hs : sl.state = .free) (hj : s.slots[j]? = some e) (he : e.state = .empty)
    (hn : n < sl.internalSize) : Aged env T s (s.splitAt i sl j n) := by
  have hr := (hc.slot hi).region (by rw [hs]; nofun)
  have hle := hr.le
  have hne : j ≠ i := by
    rintro rfl
    obtain rfl := Option.some.inj (hi.symm.trans hj)
    rw [hs] at he
    cases he
  have hfree : ∀ x, Barred env s x → ¬ sl.Owns x := fun x hx ho => by
    rcases hx.slot hi ho with hp | hp <;> rw [hs] at hp <;> cases hp
  have hhigh : ∀ x, (sl.surplus n).Owns x → sl.Owns x := fun x hx => by
    rw [Slot.surplus_eq hr hn] at hx
    simp only [Slot.Owns] at *
    omega
  have h₁ : Aged env T s (s.putSlot j (sl.surplus n)) :=
    Aged.put [] hj rfl rfl (fun x hx => Or.inr hx.page)
      (fun x hx ho => absurd (hhigh x ho) (hfree x hx)) fun hp => absurd he hp.ne_empty
  refine h₁.trans ?_
  have hi' : (s.putSlot j (sl.surplus n)).slots[i]? = some sl := by
    rw [State.getElem?_putSlot hj, if_neg hne, hi]
  refine Aged.put [] hi' rfl rfl (fun x hx => Or.inr hx.page) (fun x hx ho => ?_) fun hp => ?_
  · have hown : sl.Owns x := ⟨ho.1, by
      have := ho.2
      dsimp only at this
      omega⟩
    rcases hx.slot hi' hown with hp | hp <;> rw [hs] at hp <;> cases hp
  · rcases hp with hp | hp <;> rw [hs] at hp <;> cases hp

theorem withUnused_aged (s : State) (n : ℕ) :
    Aged env T s { s with book := s.book.withUnused n } := .of_same rfl rfl rfl

theorem Base.aged (hc : Core env s) (h : Base env ok s t) : Aged env T s t := by
  cases h with
  | quiet => exact .of_same rfl rfl rfl
  | sweep h => exact h.aged hc
  | gain hi hs _ hn hg => exact (gained_aged hi hs hn hg).trans (.of_same rfl rfl rfl)
  | @clear i sl hi hs =>
    refine Aged.put [] hi rfl rfl (fun x hx => Or.inr hx.page) (fun x _ ho => ?_)
      fun hp => absurd hs hp.ne_empty
    refine absurd ho fun ho => ?_
    have h0 : sl.internalSize = 0 := by
      cases hc.slot hi with
      | empty _ _ _ h0 => exact h0
      | free h => rw [h] at hs; cases hs
      | inUse h => rw [h] at hs; cases hs
      | guarded h => exact absurd hs h.ne_empty
    have h1 := ho.1
    have h2 := ho.2
    simp only [h0] at h1 h2
    omega
  | split hi hs hj he hn =>
    exact (splitAt_aged hc hi hs hj he hn).trans (withUnused_aged _ _)

theorem Bases.aged (hok : ∀ n, ok n → WholePages env n) (hc : Core env s) (h : Bases env ok s t) :
    Aged env T s t := by
  induction h with
  | refl => exact .refl env T s
  | tail h hb ih => exact ih.trans (hb.aged (Bases.core h hok hc))

theorem Taken.aged (h : Taken env n al r i l s t sl new)
    (hcont : T → r.Contained env al sl.internalAddress) (ht : Take env n al r i l s t) :
    Aged env T s t := by
  have hnot : ∀ {sl' : Slot}, sl'.IsProtected → sl'.state ≠ .free := by
    rintro sl' (hp | hp) hf <;> rw [hp] at hf <;> cases hf
  have hfree : ∀ x, Barred env s x → ¬ new.Owns x := fun x hx ho =>
    hnot (hx.slot h.old (h.owns_iff.mp ho)) h.free
  refine ⟨[.state i .free .inUse], ?_, fun hT x hx => Or.inr ⟨?_, fun k sl' hk ho => ?_⟩,
    fun k sl' hk hp => .held (?_ : t.slots[k]? = some sl') hp fun x hx => Or.inl hx⟩
  · cases ht with
    | @intro sl hi hs =>
      have hst : (sl.handed env s l r).state = .inUse := rfl
      rw [State.took_trace, State.putSlot_trace hi, hs, hst, if_neg (by decide)]
      rfl
  · rw [h.contained (hcont hT) (hfree x hx)]
    exact hx.page
  · rw [h.slot] at hk
    split at hk
    · obtain rfl := Option.some.inj hk
      exact absurd ho (hfree x hx)
    · exact hx.slot hk ho
  · have hne : i ≠ k := by
      rintro rfl
      obtain rfl := Option.some.inj (h.old.symm.trans hk)
      exact hnot hp h.free
    rw [h.slot, if_neg hne, hk]

theorem switchList_aged (s : State) (a n : ℕ) : Aged env T s (s.switchList env a n) := by
  have hslot := fun k => @State.switchList_slot env s a n k
  refine ⟨[], rfl, fun _ x hx => Or.inr ⟨hx.page, fun k sl hk ho => ?_⟩,
    fun k sl hk hp => .held ((hslot k).1 sl hk) hp fun x hx => Or.inl hx⟩
  rcases (hslot k).2 sl hk with hk' | rfl
  · exact hx.slot hk' ho
  · have := ho.1
    have := ho.2
    simp only [Slot.zero] at *
    omega

theorem Release.aged (hc : Core env s) (hi : s.slots[i]? = some sl) (hs : sl.state = .inUse)
    (h : Release env i sl site s t) : Aged env T s t := by
  have hnp : ¬ sl.IsProtected := by rintro (hp | hp) <;> rw [hs] at hp <;> cases hp
  cases h with
  | guard => exact (guarded_aged hc hi hs).trans (.of_same rfl rfl rfl)
  | delete hp =>
    exact (dropped_aged hc hi (by rw [hs]; nofun) hp fun h => absurd h hnp).trans
      (.of_same rfl rfl rfl)

theorem Growth.aged (hc : Core env s) (h : Growth env s t) : Aged env T s t := by
  obtain ⟨s₁, s₂, s₄, i, j, l, old, new, sl, p, b, m⟩ := h.move hc
  have h₁ := Bases.aged (T := T) (fun n hn => hn ▸ hc.wholeList) hc m.before
  have h₂ : Aged env T s₁ s₂ := m.taken.aged (fun _ => Or.inr (Or.inl rfl)) m.take
  have h₄ := Bases.aged (T := T) (fun _ => False.elim) m.core₃ m.after
  have hd := dropped_aged (p := p) (T := T) m.core₄ m.slot₄ (by rw [m.list.state]; nofun) m.page
    fun hp => by rcases hp with hp | hp <;> rw [m.list.state] at hp <;> cases hp
  rw [m.eq]
  exact (((h₁.trans h₂).trans (switchList_aged _ _ _)).trans h₄).trans
    (hd.trans (.of_same rfl rfl rfl))

theorem Inners.aged (hok : ∀ n, ok n → WholePages env n) (hc : Core env s)
    (h : Inners env ok s t) : Aged env T s t := by
  induction h with
  | refl => exact .refl env T s
  | tail h hi ih =>
    have hcore := (Inners.kept hok hc h).core
    cases hi with
    | base hb => exact ih.trans (hb.aged hcore)
    | growth hg => exact ih.trans (hg.aged hcore)

theorem setList_ages (hc : Core env s) : Ages env T s (s.setList env p) [] := by
  refine .of_slots rfl rfl fun x hx => ?_
  rw [hc.setList_page, if_neg]
  · exact hx.page
  · rintro ⟨h1, h2⟩
    obtain ⟨k, sl, hk, hL, hown⟩ := hc.owns_list
    obtain ⟨sl', hk', -, ho⟩ := hown x h1 h2
    obtain rfl := Option.some.inj (hk.symm.trans hk')
    rcases hx.slot hk ho with hp | hp <;> rw [hL.state] at hp <;> cases hp

theorem Silent.aged (hok : ∀ n, ok n → WholePages env n) (hc : Core env s)
    (h : Silent env ok s t) : Aged env T s t := by
  cases h with
  | inner h => exact Inners.aged hok hc (.single h)
  | list => exact ⟨[], setList_ages hc⟩
  | depth => exact .of_same rfl rfl rfl

/-- What every step of a run does to freed memory. -/
theorem Act.aged
    (hS : ∀ n al r, serves n al r → Served env n al r ∧ (T → ∀ int, r.Contained env al int))
    (h : Safe env s) (ha : Act env works serves s t) : Aged env T s t := by
  cases ha with
  | silent _ ha => exact ha.aged (fun _ => False.elim) h.core
  | serve _ hr hu hi ht =>
    obtain ⟨hS, hcont⟩ := hS _ _ _ hr
    obtain ⟨hk, ⟨sl, new, hT⟩, -⟩ := h.serve hS hu hi ht
    exact (Inners.aged hS.whole h.core hi).trans (hT.aged (fun hx => hcont hx _) ht)
  | release _ hi h0 hp hu hr => exact hr.aged h.core hi ((h.core.slot hi).isUser h0 hp hu).1
  | store => exact .of_same rfl rfl rfl
  | set => exact .of_same rfl rfl rfl
  | initDone => exact .of_same rfl rfl rfl

theorem Acts.aged
    (hS : ∀ n al r, serves n al r → Served env n al r ∧ (T → ∀ int, r.Contained env al int))
    (h : Safe env s) (ha : Acts env works serves s t) : Aged env T s t := by
  have run : Safe env t ∧ Aged env T s t := by
    induction ha with
    | refl => exact ⟨h, .refl env T s⟩
    | tail _ ha ih =>
      exact ⟨ha.safe (fun n al r hr => (hS n al r hr).1) ih.1, ih.2.trans (ha.aged hS ih.1)⟩
  exact run.2

end Steps

section Start

/-- A block that is released is barred. -/
theorem Release.barred (hc : Core env s) (hi : s.slots[i]? = some sl) (hu : sl.IsUser)
    (h : Release env i sl site s t) (hx : sl.Owns x) : Barred env t x := by
  have hs : sl.state ≠ .empty := hu.1.trans_ne (by decide)
  have hct := h.core hc hi hu.1 hu.not_isList
  have hloc := h.local hc hi hs
  refine ⟨h.page ((hc.slot hi).region hs) hx, fun k sl' hk ho => ?_⟩
  have hne : sl'.state ≠ .empty := fun he => (hct.slot hk).not_owns he ho
  by_cases hki : k = i
  · subst hki
    obtain ⟨new, hn, hst⟩ := h.slot hi
    obtain rfl := Option.some.inj (hk.symm.trans hn)
    exact Or.inl (hst.resolve_right hne)
  · exact absurd (hc.eq_of_owns (hloc.back hki hk hne) hi ho hx) hki

end Start

end Duma

import Duma.Region.Silent

/-! # Tidy states

What holds in every run whatever the requests are: the records of empty slots are cleared, and the
list is short enough for the 32-bit counter that copies it.
-/

namespace Duma

variable {env : Env} {ok : ℕ → Prop} {s s' : State} {i n al : ℕ} {sl new : Slot} {r : Request}
  {l : Layout} {site : Site}

structure Tidy (env : Env) (s : State) : Prop where
  empty : ∀ ⦃i : ℕ⦄ ⦃sl : Slot⦄, s.slots[i]? = some sl → sl.state = .empty →
    sl.internalSize = 0 ∧ sl.userAddress = 0
  list : s.allocListSize ≤ 2 ^ 32 + env.pageSize
  length : s.slots.length * sizeofSlot ≤ s.allocListSize
  pos : s.allocList ≠ 0

namespace Tidy

theorem congr (h : Tidy env s) (hs : s'.slots = s.slots)
    (hl : s'.allocListSize = s.allocListSize) (ha : s'.allocList = s.allocList) : Tidy env s' :=
  ⟨fun _ _ hi => h.empty (hs ▸ hi), hl ▸ h.list, by rw [hs, hl]; exact h.length, ha ▸ h.pos⟩

theorem set (h : Tidy env s) (hs : s'.slots = s.slots.set i new)
    (hl : s'.allocListSize = s.allocListSize) (ha : s'.allocList = s.allocList)
    (hnew : new.state = .empty → new.internalSize = 0 ∧ new.userAddress = 0) : Tidy env s' := by
  refine ⟨fun k sl hk he => ?_, hl ▸ h.list, ?_, ha ▸ h.pos⟩
  · rw [hs, List.getElem?_set] at hk
    split at hk
    · split at hk
      · cases hk
        exact hnew he
      · cases hk
    · exact h.empty hk he
  · rw [hs, hl, List.length_set]
    exact h.length

theorem putSlot {v : Slot} (h : Tidy env s)
    (hv : v.state = .empty → v.internalSize = 0 ∧ v.userAddress = 0) :
    Tidy env (s.putSlot i v) :=
  h.set State.putSlot_slots State.putSlot_allocListSize State.putSlot_allocList hv

theorem useSlot (h : Tidy env s) : Tidy env s.useSlot := by
  have withBook : ∀ (t : State) (b : Book), Tidy env t → Tidy env { t with book := b } :=
    fun _ _ h => h.congr rfl rfl rfl
  exact withBook _ _ h

theorem withBook (h : Tidy env s) (b : Book) : Tidy env { s with book := b } := h.congr rfl rfl rfl

theorem evicts (h : Tidy env s) (he : Evicts env s s') : Tidy env s' := by
  induction he with
  | refl => exact h
  | tail _ he ih =>
    cases he with
    | quiet b => exact ih.withBook b
    | shrink =>
      exact ih.set State.putSlot_slots State.putSlot_allocListSize State.putSlot_allocList (by simp)
    | drop =>
      exact ih.set State.putSlot_slots State.putSlot_allocListSize State.putSlot_allocList
        fun _ => ⟨rfl, rfl⟩

theorem base (h : Tidy env s) (hb : Base env ok s s') : Tidy env s' := by
  cases hb with
  | quiet b => exact h.withBook b
  | sweep hs =>
    cases hs with
    | full he => exact (h.evicts he).congr rfl rfl rfl
    | short he => exact (h.evicts he).congr rfl rfl rfl
  | @gain i a m n sl hi hs _ hn hg b =>
    have : Tidy env (s.gained env i sl a n) :=
      h.set State.putSlot_slots State.putSlot_allocListSize
      State.putSlot_allocList (by simp)
    exact this.withBook b
  | @clear i sl hi hs =>
    have := h.empty hi hs
    exact h.putSlot fun _ => this
  | @split i j n sl e hi hs hj he hn =>
    have hne : sl.state ≠ .empty := by rw [hs]; nofun
    have : Tidy env (s.splitAt i sl j n) :=
      (h.putSlot (i := j) (v := sl.surplus n) fun hs' => absurd hs' hne).putSlot
        (v := { sl with internalSize := n }) fun hs' => absurd hs' hne
    exact this.useSlot

theorem bases (h : Tidy env s) (hb : Bases env ok s s') : Tidy env s' := by
  induction hb with
  | refl => exact h
  | tail _ hs ih => exact ih.base hs

theorem take (h : Tidy env s) (ht : Take env n al r i l s s') : Tidy env s' := by
  obtain ⟨hi, -, -, -, -⟩ := ht
  rename_i sl
  obtain ⟨mem, trace, he, -⟩ := @State.took_eq env s i n sl r l
  rw [he]
  exact h.set rfl rfl rfl nofun

theorem release (h : Tidy env s) (hr : Release env i sl site s s') : Tidy env s' := by
  cases hr with
  | guard hk b =>
    refine h.set (i := i) State.putSlot_slots State.putSlot_allocListSize
      State.putSlot_allocList fun he => ?_
    rw [Slot.freedAt_state] at he
    cases he
  | delete hp b =>
    exact h.set (i := i) State.putSlot_slots State.putSlot_allocListSize
      State.putSlot_allocList fun _ => ⟨rfl, rfl⟩

theorem listRequest_size (h : Tidy env s) :
    (s.listRequest env).userSize = s.allocListSize + env.pageSize := by
  have := h.list
  have := env.pageSize_lt
  exact Word.add_eq (by omega)

theorem listServed (h : Tidy env s) :
    Served env (s.listNeed env) 1 (s.listRequest env) := by
  have := h.list
  have := env.pageSize_lt
  have := env.pageSize_pos
  have hus := h.listRequest_size
  exact .pos ⟨⟨0, rfl⟩, by omega, by omega⟩ rfl

theorem switchList {a : ℕ} (h : Tidy env s) (ha : a ≠ 0) (hsize : s.allocListSize < 2 ^ 32) :
    Tidy env (s.switchList env a (s.allocListSize + env.pageSize)) := by
  refine ⟨fun k sl hk he => ?_, ?_, ?_, ha⟩
  · rcases (State.switchList_slot _ _ k).2 sl hk with hk' | rfl
    · exact h.empty hk' he
    · exact ⟨rfl, rfl⟩
  · simp only [State.switchList]
    omega
  · have hlen := h.length
    have hP := Nat.div_mul_le_self env.pageSize sizeofSlot
    simp only [State.switchList, List.length_append, List.length_replicate, Env.slotsPerPage,
      Nat.add_mul]
    omega

theorem switched {s₁ s₂ : State} (h : Tidy env s) (h₁ : Bases env (· = s.listNeed env) s s₁)
    (ht : Take env (s₁.listNeed env) 1 (s₁.listRequest env) i l s₁ s₂)
    (hsize : s₁.allocListSize < 2 ^ 32) (hz : l.userAddr ≠ 0) :
    Tidy env (s₂.switchList env l.userAddr (s₁.listRequest env).userSize) := by
  have hsame : s₂.allocListSize = s₁.allocListSize := by
    obtain ⟨hi, -, -, -, -⟩ := ht
    obtain ⟨mem, trace, he, -⟩ := @State.took_eq env s₁ i (s₁.listNeed env) _
        (s₁.listRequest env) l
    rw [he]
  rw [(h.bases h₁).listRequest_size, ← hsame]
  exact ((h.bases h₁).take ht).switchList hz (hsame ▸ hsize)

theorem growth (h : Tidy env s) (hg : Growth env s s') : Tidy env s' := by
  cases hg with
  | moved h₁ ht hsize hz h₃ hj hu h0 hp ha hr => exact ((h.switched h₁ ht hsize hz).bases h₃).release hr
  | stuck h₁ ht hsize hz ho he => exact he ▸ h.switched h₁ ht hsize hz
  | lost h₁ ht h0 => exact (h.bases h₁).take ht

theorem inner (h : Tidy env s) (hi : Inner env ok s s') : Tidy env s' := by
  cases hi with
  | base hb => exact h.base hb
  | growth hg => exact h.growth hg

theorem inners (h : Tidy env s) (hi : Inners env ok s s') : Tidy env s' := by
  induction hi with
  | refl => exact h
  | tail _ hs ih => exact ih.inner hs

theorem silent (h : Tidy env s) (hs : Silent env ok s s') : Tidy env s' := by
  cases hs with
  | inner hi => exact h.inner hi
  | list => exact h.congr rfl rfl rfl
  | depth => exact h.congr rfl rfl rfl

theorem silents (h : Tidy env s) (hs : Silents env ok s s') : Tidy env s' := by
  induction hs with
  | refl => exact h
  | tail _ hs ih => exact ih.silent hs

end Tidy

end Duma

import Duma.Region.Growth

/-! # Silent steps

What a public call does beside handing out, releasing and writing blocks: inner steps, and the
opening and closing of the list. No block of the program notices any of it.
-/

namespace Duma

variable {env : Env} {ok : ℕ → Prop} {s s' s'' : State} {p : Page}

def State.setList (env : Env) (s : State) (p : Page) : State :=
  s.setPages env s.allocList (s.allocList + env.roundUp s.allocListSize) p

def State.setDepth (s : State) (d : ℕ) : State := { s with book := { s.book with semDepth := d } }

/-- A step that no block of the program notices. -/
inductive Silent (env : Env) (ok : ℕ → Prop) (s : State) : State → Prop
  | inner {s' : State} (h : Inner env ok s s') : Silent env ok s s'
  | list {p : Page} (hp : p ≠ .unmapped) : Silent env ok s (s.setList env p)
  | depth (d : ℕ) : Silent env ok s (s.setDepth d)

abbrev Silents (env : Env) (ok : ℕ → Prop) : State → State → Prop :=
  Relation.ReflTransGen (Silent env ok)

theorem Inners.silents (h : Inners env ok s s') : Silents env ok s s' :=
  Relation.ReflTransGen.mono (fun _ _ => Silent.inner) _ _ h

/-- What holds of a state reached by silent steps when the invariant held at their start. -/
structure Calm (env : Env) (s s' : State) : Prop where
  core : Core env s'
  keeps : Keeps env s s'
  cfg : s'.cfg = s.cfg
  tls : s'.tls = s.tls
  initDone : s'.initDone = s.initDone
  nullBlock : s'.nullBlock = s.nullBlock

theorem Calm.refl (h : Core env s) : Calm env s s := ⟨h, Keeps.refl s, rfl, rfl, rfl, rfl⟩

theorem Calm.trans (h : Calm env s s') (h' : Calm env s' s'') : Calm env s s'' :=
  ⟨h'.core, h.keeps.trans h'.keeps, h'.cfg.trans h.cfg, h'.tls.trans h.tls,
    h'.initDone.trans h.initDone, h'.nullBlock.trans h.nullBlock⟩

theorem Kept.calm (h : Kept env s s') : Calm env s s' :=
  ⟨h.core, h.keeps, h.same.cfg, h.same.tls, h.same.initDone, h.same.nullBlock⟩

theorem Core.list_dvd (h : Core env s) :
    env.pageSize ∣ s.allocList ∧ env.pageSize ∣ s.allocListSize := by
  obtain ⟨l, sl, -, -, hr, hi, hd, -⟩ := h.list_slot
  exact ⟨hi ▸ hr.dvd, hd⟩

theorem Core.setList_page (h : Core env s) (x : ℕ) : (s.setList env p).page env x =
    if s.allocList ≤ x ∧ x < s.allocList + s.allocListSize then p else s.page env x := by
  obtain ⟨h1, h2⟩ := h.list_dvd
  rw [State.setList, State.setPages_page h1 (Nat.dvd_add h1 (Env.dvd_roundUp _)),
    Env.roundUp_of_dvd h2]

theorem Core.setList (h : Core env s) (hp : p ≠ .unmapped) : Core env (s.setList env p) :=
  h.setPages h.list_dvd.1 (Nat.dvd_add h.list_dvd.1 (Env.dvd_roundUp _)) hp

theorem Core.keeps_setList (h : Core env s) : Keeps env s (s.setList env p) := by
  obtain ⟨l, sl, hl, hL, hown⟩ := h.owns_list
  refine ⟨fun _ _ hk _ => hk, fun _ _ hk _ => hk, fun k sl' x hk hu hx => ?_, fun _ _ _ _ _ _ => rfl⟩
  rw [h.setList_page, if_neg]
  rintro ⟨h1, h2⟩
  obtain rfl : l = k := h.part.unique (hown x h1 h2) (h.owns hk hx)
  rw [hl] at hk
  cases hk
  exact hu.2 (by rw [hL.allocator]; rfl)

theorem Silent.calm (hok : ∀ n, ok n → WholePages env n) (hc : Core env s)
    (h : Silent env ok s s') : Calm env s s' := by
  cases h with
  | inner h => exact (h.kept hok hc).calm
  | list hp => exact ⟨hc.setList hp, hc.keeps_setList, rfl, rfl, rfl, rfl⟩
  | depth d =>
    have hk : Keeps env s s := Keeps.refl s
    exact ⟨hc.of_book, ⟨hk.slot, hk.back, hk.page, hk.mem⟩, rfl, rfl, rfl, rfl⟩

theorem Silents.calm (hok : ∀ n, ok n → WholePages env n) (hc : Core env s)
    (h : Silents env ok s s') : Calm env s s' := by
  induction h with
  | refl => exact Calm.refl hc
  | tail _ hs ih => exact ih.trans (hs.calm hok ih.core)

/-- The live pages of the program's blocks may be read and written. -/
def Live (env : Env) (s : State) : Prop :=
  ∀ ⦃k : ℕ⦄ ⦃sl : Slot⦄ ⦃x : ℕ⦄, s.slots[k]? = some sl → sl.IsUser → sl.Live x →
    s.page env x = .readWrite

theorem Keeps.live (hk : Keeps env s s') (hc : Core env s) (h : Live env s) : Live env s' := by
  intro k sl x hs hu hx
  have hs' := hk.back hs hu
  have hwf := hc.slot hs'
  have hown := (hwf.placed hu.1).owns_of_live (hwf.region (by rw [hu.1]; nofun)) hx
  rw [hk.page hs' hu hown, h hs' hu hx]

end Duma

import Duma.Foundation.Wp
import Duma.Region.Silent

/-! # Specifications of the primitive operations

A specification says what a program does to the state when it returns, whatever the state was,
and which stops are possible when it starts in a state that satisfies the invariants.
-/

namespace Duma

variable {env : Env} {ok : ℕ → Prop} {s s' : State} {i j a n x lo hi size : ℕ} {sl new : Slot}
  {p : Page} {α β : Type} {m : M α} {A B : Stop → Prop} {Q R : α → State → Prop}

/-- The invariants in force inside the allocator, with the slot list open. -/
structure Ready (env : Env) (s : State) : Prop where
  core : Core env s
  «open» : Open env s
  live : Live env s

theorem Ready.kept (h : Ready env s) (hk : Kept env s s') : Ready env s' :=
  ⟨hk.core, hk.open h.open, hk.keeps.live h.core h.live⟩

/-- What the description of the stops assumes. -/
structure Pre (env : Env) (ok : ℕ → Prop) (s : State) : Prop where
  whole : ∀ n, ok n → WholePages env n
  ready : Ready env s

theorem Base.mono {ok' : ℕ → Prop} (h : ∀ n, ok n → ok' n) (hb : Base env ok s s') :
    Base env ok' s s' := by
  cases hb with
  | quiet b hb => exact .quiet b hb
  | sweep hs => exact .sweep hs
  | gain hi hs hok hn hg b hb => exact .gain hi hs (h _ hok) hn hg b hb
  | clear hi hs => exact .clear hi hs
  | split hi hs hj he hn hn' => exact .split hi hs hj he hn (h _ hn')

theorem Bases.mono {ok' : ℕ → Prop} (h : ∀ n, ok n → ok' n) (hb : Bases env ok s s') :
    Bases env ok' s s' :=
  Relation.ReflTransGen.mono (fun _ _ hs => Base.mono h hs) _ _ hb

theorem Inner.mono {ok' : ℕ → Prop} (h : ∀ n, ok n → ok' n) (hi : Inner env ok s s') :
    Inner env ok' s s' := by
  rcases hi with hb | hg
  exacts [.base (hb.mono h), .growth hg]

theorem Inners.mono {ok' : ℕ → Prop} (h : ∀ n, ok n → ok' n) (hi : Inners env ok s s') :
    Inners env ok' s s' :=
  Relation.ReflTransGen.mono (fun _ _ hs => Inner.mono h hs) _ _ hi

theorem Silent.mono {ok' : ℕ → Prop} (h : ∀ n, ok n → ok' n) (hs : Silent env ok s s') :
    Silent env ok' s s' := by
  cases hs with
  | inner hi => exact .inner (hi.mono h)
  | list hp => exact .list hp
  | depth d => exact .depth d

theorem Silents.mono {ok' : ℕ → Prop} (h : ∀ n, ok n → ok' n) (hs : Silents env ok s s') :
    Silents env ok' s s' :=
  Relation.ReflTransGen.mono (fun _ _ hs => Silent.mono h hs) _ _ hs

theorem Bases.inners (h : Bases env ok s s') : Inners env ok s s' :=
  Relation.ReflTransGen.mono (fun _ _ hs => Inner.base hs) _ _ h

theorem Pre.kept (h : Pre env ok s) (hi : Inners env ok s s') : Kept env s s' :=
  Inners.kept h.whole h.ready.core hi

theorem Pre.inners (h : Pre env ok s) (hi : Inners env ok s s') : Pre env ok s' :=
  ⟨h.whole, h.ready.kept (h.kept hi)⟩

theorem Pre.bases (h : Pre env ok s) (hb : Bases env ok s s') : Pre env ok s' :=
  h.inners hb.inners

/-- Running `m` from `s` ends in `Q` if it returns; under the invariants it stops only in the
ways that `A` allows. -/
def Ensures (env : Env) (ok : ℕ → Prop) (m : M α) (Q : α → State → Prop) (A : Stop → Prop)
    (s : State) : Prop :=
  Wp m Q (fun e _ => Pre env ok s → A e) s

namespace Ensures

theorem mono (h : Ensures env ok m Q A s) (hQ : ∀ a s', Q a s' → R a s')
    (hA : ∀ e, A e → B e) : Ensures env ok m R B s :=
  Wp.mono h hQ fun _ _ he hp => hA _ (he hp)

theorem post (h : Ensures env ok m Q A s) (hQ : ∀ a s', Q a s' → R a s') :
    Ensures env ok m R A s :=
  h.mono hQ fun _ => id

theorem pure {v : α} (h : Q v s) : Ensures env ok (Pure.pure v : M α) Q A s := h

theorem throw {e : Stop} (h : Pre env ok s → A e) : Ensures env ok (throw e : M α) Q A s := h

theorem abort {r : Report} (h : Pre env ok s → A (.abort r)) :
    Ensures env ok (Duma.abort r : M α) Q A s := h

theorem bind {f : α → M β} {T : β → State → Prop} (hm : Ensures env ok m R A s)
    (hi : ∀ a s', R a s' → Inners env ok s s')
    (hf : ∀ a s', R a s' → Ensures env ok (f a) T A s') : Ensures env ok (m >>= f) T A s :=
  Wp.seq hm fun a s' hr => Wp.mono (hf a s' hr) (fun _ _ => id) fun _ _ he hp =>
    he (hp.inners (hi a s' hr))

theorem from_inners (hi : Inners env ok s s') (h : Ensures env ok m Q A s') :
    Wp m Q (fun e _ => Pre env ok s → A e) s' :=
  Wp.mono h (fun _ _ => id) fun _ _ he hp => he (hp.inners hi)

theorem bind_same {f : α → M β} {T : β → State → Prop} {P : α → Prop}
    (hm : Ensures env ok m (fun v t => P v ∧ t = s) A s)
    (hf : ∀ v, P v → Ensures env ok (f v) T A s) : Ensures env ok (m >>= f) T A s :=
  hm.bind (fun _ _ h => h.2 ▸ .refl) fun v _ h => h.2 ▸ hf v h.1

theorem ite {c : Prop} [Decidable c] {m' : M α} (ht : c → Ensures env ok m Q A s)
    (hf : ¬ c → Ensures env ok m' Q A s) : Ensures env ok (if c then m else m') Q A s :=
  Wp.ite ht hf

theorem get_bind {f : State → M β} {T : β → State → Prop} (h : Ensures env ok (f s) T A s) :
    Ensures env ok (get >>= f) T A s := h

theorem update {g : State → State} {Q : PUnit → State → Prop} (h : Q ⟨⟩ (g s)) :
    Ensures env ok (modify g : M PUnit) Q A s := h

end Ensures

theorem modifyBook_wp {f : Book → Book} {E : Stop → State → Prop} {Q : Unit → State → Prop} :
    Wp (modifyBook f) Q E s ↔ Q ⟨⟩ { s with book := f s.book } := Iff.rfl

section Access

theorem touch_wp {E : Stop → State → Prop} {Q : Unit → State → Prop}
    (hQ : (∀ x, lo ≤ x → x < hi → s.page env x = .readWrite) → Q () s)
    (hE : ¬ (∀ x, lo ≤ x → x < hi → s.page env x = .readWrite) → E (.segv lo) s) :
    Wp (touch env lo hi) Q E s := by
  refine Wp.bind_iff.mpr (Wp.get_iff.mpr (Wp.ite (fun h => hQ ?_) fun h => hE ?_))
  · exact State.accessible_iff.mp h
  · exact fun h' => h (State.accessible_iff.mpr h')

theorem touch_ensures (h : Pre env ok s → ∀ x, lo ≤ x → x < hi → s.page env x = .readWrite) :
    Ensures env ok (touch env lo hi)
      (fun _ t => (∀ x, lo ≤ x → x < hi → s.page env x = .readWrite) ∧ t = s) A s :=
  touch_wp (fun h' => ⟨h', rfl⟩) fun h' hp => absurd (h hp) h'

theorem readSlots_ensures :
    Ensures env ok (readSlots env) (fun l t => l = s.slots ∧ t = s) A s := by
  refine Ensures.get_bind ((touch_ensures fun hp => hp.ready.open).bind_same fun _ _ => ?_)
  exact Ensures.pure ⟨rfl, rfl⟩

theorem readSlot_ensures (h : s.slots[i]? = some sl) :
    Ensures env ok (readSlot env i) (fun v t => v = sl ∧ t = s) A s := by
  refine readSlots_ensures.bind_same fun l hl => ?_
  rw [hl, h]
  exact Ensures.pure ⟨rfl, rfl⟩

theorem readSlot_wp {E : Stop → State → Prop} {Q : Slot → State → Prop}
    (h : s.slots[i]? = some sl) (hQ : Q sl s) (hE : ¬ Open env s → E (.segv s.allocList) s) :
    Wp (readSlot env i) Q E s := by
  have hslots : Wp (readSlots env) (fun l t => l = s.slots ∧ t = s) E s :=
    Wp.bind_iff.mpr (Wp.get_iff.mpr (Wp.bind_iff.mpr (touch_wp (fun _ => ⟨rfl, rfl⟩) hE)))
  refine Wp.seq hslots ?_
  rintro l t ⟨rfl, rfl⟩
  rw [h]
  exact hQ

theorem modifySlot_wp {f : Slot → Slot} {E : Stop → State → Prop} {Q : Unit → State → Prop}
    (h : s.slots[i]? = some sl) (hQ : Q ⟨⟩ (s.putSlot i (f sl)))
    (hE : ¬ Open env s → E (.segv s.allocList) s) : Wp (modifySlot env i f) Q E s :=
  Wp.bind_iff.mpr (readSlot_wp h hQ hE)

theorem storeRange_wp {f : ℕ → UInt8} {E : Stop → State → Prop} {Q : Unit → State → Prop}
    (hQ : (∀ x, lo ≤ x → x < hi → s.page env x = .readWrite) →
      (lo < hi → hi ≤ s.allocList ∨ s.allocList + s.allocListSize ≤ lo) → Q () (s.store lo hi f))
    (hE : ¬ (∀ x, lo ≤ x → x < hi → s.page env x = .readWrite) → E (.segv lo) s)
    (hL : lo < hi → lo < s.allocList + s.allocListSize → s.allocList < hi →
      E (.listOverwritten (max lo s.allocList)) s) :
    Wp (storeRange env lo hi f) Q E s := by
  refine Wp.bind_iff.mpr (touch_wp (fun h => ?_) hE)
  refine Wp.bind_iff.mpr (Wp.get_iff.mpr (Wp.ite (fun h' => ?_) fun h' => ?_))
  · exact hL h'.1 h'.2.1 h'.2.2
  · exact hQ h fun hlt => by omega

theorem storeRange_under {B : Prop} {f : ℕ → UInt8}
    (hB : B → (∀ x, lo ≤ x → x < hi → s.page env x = .readWrite) ∧
      (lo < hi → hi ≤ s.allocList ∨ s.allocList + s.allocListSize ≤ lo)) :
    Wp (storeRange env lo hi f) (fun _ t => t = s.store lo hi f) (fun e _ => B → A e) s :=
  storeRange_wp (fun _ _ => rfl) (fun h hb => absurd (hB hb).1 h) fun h1 h2 h3 hb => by
    have := (hB hb).2 h1
    omega

end Access

section Paging

structure MprotectOk (env : Env) (s : State) (address size : ℕ) : Prop where
  dvd : env.pageSize ∣ address
  le : address + env.roundUp size ≤ env.taskSize
  mapped : ∀ x, address ≤ x → x < address + env.roundUp size → s.page env x ≠ .unmapped

theorem mprotect_wp {E : Stop → State → Prop} {Q : Unit → State → Prop}
    (hQ : MprotectOk env s a n → Q () (s.setPages env a (a + env.roundUp n) p))
    (hE : ¬ MprotectOk env s a n → E (.abort .mprotectFailed) s) :
    Wp (mprotect env a n p) Q E s := by
  have hall : s.pages.all env.pageSize a (a + env.roundUp n) (· != .unmapped) = true ↔
      ∀ x, a ≤ x → x < a + env.roundUp n → s.page env x ≠ .unmapped := by
    simp only [PageMap.all_iff env.pageSize_pos, bne_iff_ne, State.page]
  refine Wp.bind_iff.mpr (Wp.get_iff.mpr (Wp.ite (fun h => hQ ?_) fun h => hE ?_))
  · exact ⟨h.1, h.2.1, hall.mp h.2.2⟩
  · exact fun h' => h ⟨h'.dvd, h'.le, hall.mpr h'.mapped⟩

theorem Core.mprotectOk (h : Core env s) (hi : s.slots[i]? = some sl) (hs : sl.state ≠ .empty)
    (ha : env.pageSize ∣ a) (hn : env.pageSize ∣ n) (hlo : sl.internalAddress ≤ a)
    (hhi : a + n ≤ sl.internalAddress + sl.internalSize) : MprotectOk env s a n := by
  have hle := ((h.slot hi).region hs).le
  have hr := Env.roundUp_of_dvd hn
  exact ⟨ha, by omega, fun x hx1 hx2 =>
    h.mapped (h.held_of_owns (h.owns hi ⟨by omega, by omega⟩))⟩

def State.afterMunmap (s : State) : State :=
  { s with book := { s.book with munmapCalls := s.book.munmapCalls + 1 } }

def State.afterMmap (s : State) : State :=
  { s with book := { s.book with mmapCalls := s.book.mmapCalls + 1 } }

theorem pageDelete_wp {E : Stop → State → Prop} {Q : Unit → State → Prop}
    (hQ : ∀ p, p ≠ .readWrite → Q () (s.afterMunmap.deleted env a n p))
    (hE : ¬ MprotectOk env s a n → E (.abort .mprotectFailed) s.afterMunmap) :
    Wp (pageDelete env a n) Q E s := by
  refine Wp.bind_iff.mpr ?_
  refine Wp.bind_iff.mpr (Wp.get_iff.mpr ?_)
  refine Wp.bind_iff.mpr ?_
  change Wp _ _ E s.afterMunmap
  refine Wp.ite (fun _ => ?_) fun _ => ?_
  · exact hQ .unmapped nofun
  · refine Wp.bind_iff.mpr (mprotect_wp (fun _ => ?_) fun h =>
      hE fun h' => h ⟨h'.dvd, h'.le, h'.mapped⟩)
    exact hQ .noAccess nofun

theorem Ensures.pageDelete_bind {f : Unit → M β} {T : β → State → Prop}
    (hm : Pre env ok s → MprotectOk env s a n)
    (hf : ∀ p, p ≠ .readWrite → Wp (f ()) T (fun e _ => Pre env ok s → A e)
      (s.afterMunmap.deleted env a n p)) :
    Ensures env ok (pageDelete env a n >>= f) T A s :=
  Wp.bind_iff.mpr (pageDelete_wp hf fun h hp => absurd (hm hp) h)

theorem State.grant_some (h : s.grant env n = some a) : s.Granted env a n := by
  unfold State.grant at h
  split at h
  · cases h
  · split at h
    · next b _ hc =>
      cases h
      obtain ⟨h1, h2, h3, h4, h5⟩ := hc
      rw [PageMap.all_iff env.pageSize_pos] at h5
      exact ⟨h1, h2, h3, h4, fun x hx1 hx2 => by simpa [State.page] using h5 x hx1 hx2⟩
    · cases h

theorem State.grant_of_le (h : s.grant env n = some a) (h0 : 0 < size) (hle : size ≤ n) :
    s.grant env size = some a := by
  have hg := State.grant_some h
  have hround : env.roundUp size ≤ env.roundUp n := Env.roundUp_mono hle
  unfold State.grant at h ⊢
  split at h
  · cases h
  · next b hb =>
    split at h
    · cases h
      refine if_pos ⟨h0, hg.dvd, hg.pos, (Nat.add_le_add_left hround a).trans hg.le, ?_⟩
      rw [PageMap.all_iff env.pageSize_pos]
      intro x h1 h2
      exact beq_iff_eq.mpr (hg.fresh x h1 (by omega))
    · cases h

theorem pageCreateBy_wp {len : ℕ → ℕ} {E : Stop → State → Prop} {Q : ℕ → State → Prop}
    {exitonfail : Bool}
    (hQ : ∀ a, s.grant env (len n) = some a → s.Granted env a (len n) → a ≠ 0 →
      Q a (s.afterMmap.created env a (len n)))
    (h0 : s.grant env (len n) = none → exitonfail = false → Q 0 s.afterMmap)
    (hE : s.grant env (len n) = none → exitonfail = true →
      E (.abort (.mmapFailed n)) s.afterMmap) :
    Wp (pageCreateBy env len n exitonfail) Q E s := by
  refine Wp.bind_iff.mpr (Wp.get_iff.mpr (Wp.bind_iff.mpr ?_))
  change Wp _ _ E s.afterMmap
  cases hg : s.grant env (len n) with
  | some a => exact hQ a hg (State.grant_some hg) (State.grant_some hg).pos.ne'
  | none =>
    refine Wp.ite (fun h => hE hg h) fun h => h0 hg ?_
    simpa using h

theorem pageCreate_wp {E : Stop → State → Prop} {Q : ℕ → State → Prop} {exitonfail : Bool}
    (hQ : ∀ a, s.grant env n = some a → s.Granted env a n → a ≠ 0 →
      Q a (s.afterMmap.created env a n))
    (h0 : s.grant env n = none → exitonfail = false → Q 0 s.afterMmap)
    (hE : s.grant env n = none → exitonfail = true → E (.abort (.mmapFailed n)) s.afterMmap) :
    Wp (pageCreate env n exitonfail) Q E s := pageCreateBy_wp hQ h0 hE

end Paging

end Duma

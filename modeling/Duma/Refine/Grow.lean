import Duma.Refine.Allocate
import Duma.Region.Act

/-! # Growth of the slot list

`allocateMoreSlots` runs an allocation and a deallocation of the same allocator around a copy. Under
the invariants neither of them can fail on the list itself.
-/

namespace Duma

variable {env : Env} {ok : ℕ → Prop} {s s' t : State} {i n p : ℕ} {sl new : Slot} {r : Request}
  {A : Stop → Prop} {l : Layout} {len : ℕ → ℕ}

theorem Tidy.listRequest_ne (h : Tidy env s) : (s.listRequest env).userSize ≠ 0 := by
  have := h.listRequest_size
  have := env.pageSize_pos
  omega

theorem Tidy.alignFor_list (h : Tidy env s) : s.alignFor (s.listRequest env) = 1 := by
  rw [State.alignFor, if_neg h.listRequest_ne]
  rfl

theorem Tidy.sizeFor_list (h : Tidy env s) : s.sizeFor env (s.listRequest env) = s.listNeed env := by
  rw [State.sizeFor, if_neg h.listRequest_ne, h.alignFor_list]
  rfl

theorem Tidy.listLike (h : Tidy env s) (hc : env.pageSize ∣ s.allocListSize) :
    (s.listRequest env).ListLike env 1 := fun _ => by
  have hus := h.listRequest_size
  have hP := env.pageSize_pos
  refine ⟨rfl, rfl, rfl, by omega, ?_⟩
  rw [hus]
  exact Nat.dvd_add hc dvd_rfl

/-- The state in which a growth searches the slots. -/
def State.listSearched (env : Env) (s : State) : Option State :=
  s.searchedWith env (pure ()) (s.listRequest env)

structure GrowStops (env : Env) (A : Stop → Prop) (s : State) : Prop where
  slack : ∀ sl e, Overwritten env s sl → SlackReport sl e → A e
  serve : ∀ t, Bases env (fun _ => False) s t → s.listSearched env = some t →
    ServeStops env (s.listNeed env) 1 (s.listRequest env) A t
  loops : 2 ^ 32 ≤ s.allocListSize → A .loops

section Copy

theorem Core.apart {j : ℕ} {a b m : ℕ} (h : Core env s) (hi : s.slots[i]? = some sl)
    (hj : s.slots[j]? = some new) (hij : i ≠ j) (ha : ∀ x, a ≤ x → x < a + n → sl.Owns x)
    (hb : ∀ x, b ≤ x → x < b + m → new.Owns x) (hn : 0 < n) (hm : 0 < m) :
    a + n ≤ b ∨ b + m ≤ a := by
  by_contra hcon
  exact hij (h.eq_of_owns hi hj (ha (max a b) (by omega) (by omega))
    (hb (max a b) (by omega) (by omega)))

theorem memcpyAccess_wp {B : Prop} {dest src : ℕ}
    (hB : B → (dest + n ≤ src ∨ src + n ≤ dest ∨ n = 0) ∧
      (∀ x, src ≤ x → x < src + n → s.page env x = .readWrite) ∧
      ∀ x, dest ≤ x → x < dest + n → s.page env x = .readWrite)
    (hA : 2 ^ 32 ≤ n → A .loops) :
    Wp (memcpyAccess env dest src n) (fun _ t => t = s ∧ n < 2 ^ 32) (fun e _ => B → A e) s := by
  unfold memcpyAccess
  refine Wp.bind_iff.mpr (Wp.get_iff.mpr (Wp.ite (fun h => Wp.bind_iff.mpr fun hb => ?_)
    fun _ => ?_))
  · have := (hB hb).1
    omega
  refine Wp.bind_iff.mpr (touch_wp (fun _ => ?_) fun h hb => absurd (fun x h1 h2 => ?_) h)
  · refine Wp.bind_iff.mpr (touch_wp (fun _ => ?_) fun h hb => absurd (fun x h1 h2 => ?_) h)
    · exact Wp.ite (fun h _ => hA h) fun h => ⟨rfl, not_le.mp h⟩
    · exact (hB hb).2.2 x h1 (by omega)
  · exact (hB hb).2.1 x h1 (by omega)

end Copy

theorem Overwritten.back (hk : Keeps env s t) (hcfg : t.cfg = s.cfg) (hc : Core env t)
    (h : Overwritten env t sl) : Overwritten env s sl := by
  have hu := h.isUser hc
  obtain ⟨⟨i, hi⟩, hs, hI⟩ := h
  have hwf := hc.slot hi
  have hr := hwf.region (hs.trans_ne (by decide))
  have hi' := hk.back hi hu
  refine ⟨⟨i, hi'⟩, hs, fun hI' => hI fun x hx => ?_⟩
  rw [hk.mem hi' hu ((hwf.placed hs).owns_of_live hr hx.1), hI' x hx, State.slackfillOf,
    State.slackfillOf, hcfg]

theorem Taken.oldList {u : State} (hT : Taken env (u.listNeed env) 1 (u.listRequest env) i l u t new
    sl) (hc : Core env u) (hc' : Core env t) : ∃ (j : ℕ) (old : Slot), i ≠ j ∧ u.slots[j]? = some old ∧
      t.slots[j]? = some old ∧ (u.switched env t l).slots[j]? = some old ∧ old.IsList u ∧
      ¬ old.IsList (u.switched env t l) := by
  obtain ⟨j, old, hj, hL, -⟩ := hc.list_slot
  have hne : i ≠ j := by
    rintro rfl
    have ho := hT.old
    rw [hj] at ho
    cases ho
    have := hT.free
    rw [hL.state] at this; cases this
  have hj' : t.slots[j]? = some old := by rw [hT.slot, if_neg hne, hj]
  refine ⟨j, old, hne, hj, hj', (State.switchList_slot _ _ _).1 _ hj', hL, fun hL' => hne ?_⟩
  have hi : t.slots[i]? = some sl := by rw [hT.slot, if_pos rfl]
  refine hc'.eq_of_user hi hj' ?_ (hT.region'.pos.trans_le (hT.placed.owns_user hT.region').1).ne'
  rw [hL'.user, hT.new_eq]
  rfl

theorem switch_wp (ok : ℕ → Prop) {B : Prop} {u : State}
    (hB : B → Pre env ok u ∧ Core env t ∧
      ∃ old new, Taken env (u.listNeed env) 1 (u.listRequest env) i l u t old new)
    (hT : Tidy env u) (h0 : l.userAddr ≠ 0)
    (hslack : B → ∀ sl e, Overwritten env u sl → SlackReport sl e → A e)
    (hloops : 2 ^ 32 ≤ u.allocListSize → A .loops) :
    Wp (do
      memcpyAccess env l.userAddr u.allocList u.allocListSize
      touch env (l.userAddr + u.allocListSize) (l.userAddr + u.allocListSize + env.pageSize)
      modify fun s => s.switchList env l.userAddr (u.listRequest env).userSize
      deallocate env u.allocList false .intDealloc ⟨some "duma.c", 1259⟩ : M Unit)
      (fun _ v => u.allocListSize < 2 ^ 32 ∧
        Deallocated env u.allocList false .intDealloc Site.growth (u.switched env t l) v)
      (fun e _ => B → A e) t := by
  have hsize := hT.listRequest_size
  have facts : B → (∀ x, l.userAddr ≤ x → x < l.userAddr + (u.allocListSize + env.pageSize) →
      t.page env x = .readWrite) ∧
      (∀ x, u.allocList ≤ x → x < u.allocList + u.allocListSize → t.page env x = .readWrite) ∧
      (l.userAddr + u.allocListSize ≤ u.allocList ∨ u.allocList + u.allocListSize ≤ l.userAddr ∨
        u.allocListSize = 0) := fun hb => by
    obtain ⟨hp, hc, old, new, hTk⟩ := hB hb
    have hbl := hTk.blockAt hp.ready.core hc
    rw [hsize] at hbl
    obtain ⟨-, -, -, -, -, h1, h2⟩ := hTk.frame
    have hO := hTk.open hp.ready.core hp.ready.open
    unfold Open at hO
    rw [h1, h2] at hO
    refine ⟨hbl.access, hO, ?_⟩
    have hP := env.pageSize_pos
    have := hbl.apart (by omega)
    rw [h1, h2] at this
    omega
  refine Wp.seq (memcpyAccess_wp (B := B) (fun hb => ⟨(facts hb).2.2, (facts hb).2.1, fun x h1 h2 =>
    (facts hb).1 x h1 (by omega)⟩) hloops) ?_
  rintro _ _ ⟨rfl, hlt⟩
  refine Wp.bind_iff.mpr (touch_wp (fun _ => ?_) fun h hb => absurd (fun x h1 h2 => ?_) h)
  · refine Wp.bind_iff.mpr (Wp.modify_iff.mpr ?_)
    refine Wp.mono (deallocate_wp ok (b := false) (B := B) (A := fun e => B → A e)
      (fun hb => ?_) ⟨fun sl e ho he hb => ?_, fun hn e _ hb => ?_⟩ ?_)
      (fun _ v hv => ⟨hlt, hv⟩) fun e _ he hb => he hb hb
    · obtain ⟨hp, hc, old, new, hTk⟩ := hB hb
      have hk := hTk.kept_switched hp.ready.core hc
      have hr := hp.ready.kept hk
      refine ⟨⟨⟨hp.whole, hr.core, hr.live⟩, fun _ => hr.open⟩, fun k sl hi hu hnp hty => ?_⟩
      obtain ⟨j, old', -, hju, hj, hj', hL, hnl⟩ := hTk.oldList hp.ready.core hc
      obtain rfl := hr.core.eq_of_user hi hj' (hu.trans hL.user.symm)
        (by rw [hu]; exact hp.ready.core.allocList_pos.ne')
      obtain rfl := Option.some.inj (hi.symm.trans hj')
      exact ⟨hL.state, hnl, fun x hx => (facts hb).2.1 x (by rw [← hL.user]; exact hx.1)
        (by rw [← hL.user, ← hL.size]; exact hx.2)⟩
    · obtain ⟨hp, hc, old, new, hTk⟩ := hB hb
      have hk := hTk.kept_switched hp.ready.core hc
      exact hslack hb sl e (ho.back hk.keeps hk.same.cfg hk.core) he
    · obtain ⟨hp, hc, old, new, hTk⟩ := hB hb
      obtain ⟨j, old', -, -, -, hj', hL, -⟩ := hTk.oldList hp.ready.core hc
      refine absurd ⟨j, old', hj', hL.user, fun h => ?_, by rw [hL.allocator]; rfl⟩ hn
      rcases h with h | h <;> rw [hL.state] at h <;> cases h
    · exact fun h => absurd h h0
  · exact (facts hb).1 x (by omega) (by omega)

/-- The chunk of a longer list is mapped in full, or not at all. -/
def State.BacksList (env : Env) (len : ℕ → ℕ) (s : State) : Prop :=
  Backs env len (createdSize env (s.listNeed env) (s.listRequest env))

theorem State.backsList_congr (h : t.allocListSize = s.allocListSize) :
    t.BacksList env len ↔ s.BacksList env len := by
  unfold State.BacksList
  rw [State.listNeed_congr h, State.listRequest_congr h]

/-- The list is moved, or nothing more has happened than evictions and failed attempts at a
chunk. -/
theorem allocateMoreSlots_cases (hlen : s.BacksList env len) (hT : Tidy env s)
    (hA : GrowStops env A s) : Ensures env ok (allocateMoreSlotsBy env len)
      (fun _ t => Bases env (fun _ => False) s t ∨ Growth env s t) A s := by
  -- the stops of all parts are described under the invariants at the start
  set A' : Stop → Prop := fun e => Pre env ok s → A e with hA'
  have hbase : Pre env ok s → Pre env (· = s.listNeed env) s := fun hp =>
    ⟨fun n hn => hn ▸ hp.ready.core.wholeList, hp.ready⟩
  refine Wp.bind_iff.mpr (Wp.get_iff.mpr ?_)
  have halloc := allocateWith_wp (· = s.listNeed env) (pure ()) (X := Bases env) (A := A')
    (B := Pre env ok s) (s := s) (r := s.listRequest env) within_bases
    (fun _ _ _ => by rw [hT.sizeFor_list]; exact hlen) hT.sizeFor_list
    (fun _ => by rw [hT.sizeFor_list, hT.alignFor_list]; exact hT.listServed)
    (fun hp => hT.alignFor_list ▸ hp.ready.core.listLike) hT (fun hp => (hbase hp).entry)
    (fun h => absurd rfl h) (fun b hq => ?_)
    ⟨fun h => absurd h hT.listRequest_ne, fun _ h => by rw [hT.alignFor_list] at h; cases h⟩
    fun h hp => absurd h hp.ready.core.allocList_pos.ne'
  · refine Wp.seq (Wp.mono halloc (fun _ _ => id) fun e _ he hp => he hp hp) ?_
    intro p t ht
    cases ht with
    | null _ h0 => exact absurd h0 hT.listRequest_ne
    | @served b u hq hh ht =>
      have hb : Bases env (fun _ => False) s { s with book := b } := hq.bases
      rw [hT.sizeFor_list, hT.alignFor_list] at hh
      have ht : t = u := by rw [ht]; exact if_neg (by simp [State.listRequest])
      subst ht
      have hh := hh.of_steps within_bases hb
      cases hh with
      | none h hp => exact Wp.ite (fun _ => Or.inl h) fun h' => absurd hp h'
      | @some i l u h hT' hp =>
        obtain ⟨h1, h2⟩ := Bases.allocList h
        have hreq : u.listRequest env = s.listRequest env := State.listRequest_congr h2
        have hneed : u.listNeed env = s.listNeed env := State.listNeed_congr h2
        rw [← hneed, ← hreq] at hT'
        subst hp
        refine Wp.ite (fun h0 => Or.inr (.lost h hT' h0)) fun h0 => ?_
        have hTu := hT.bases h
        have hsw := switch_wp ok (A := A) (B := Pre env ok s) (t := t) (l := l) (i := i)
          (u := u) (fun hp => ?_) hTu h0 (fun hp sl e ho he => hA.slack sl e ?_ he)
          (fun h => hA.loops (h2 ▸ h))
        · rw [h1, h2, hreq] at hsw
          refine Wp.post hsw ?_
          rintro _ v ⟨hlt, hv⟩
          rw [← h2] at hlt
          cases hv with
          | null hn hv =>
            have hnull : (u.switched env t l).nullAddr env = u.nullAddr env := by
              rw [State.nullAddr, State.nullAddr, ← hT'.same.nullBlock]
              rfl
            rw [hnull, ← h1] at hn
            exact Or.inr (.stuck h hT' hlt h0 hn hv)
          | freed hn hf hv =>
            obtain ⟨hc, hi, hi', hu, hnp, hty, hr⟩ := hf
            rw [← h1] at hn hu
            exact Or.inr (hv ▸ .moved h hT' hlt h0 (Cedes.bases hc) hi' hu hn hnp hty hr)
        · have hc := ((hbase hp).bases h).ready
          have hS := hc.core.listServed.1
          exact ⟨⟨hp.whole, hc⟩, hT'.core hc.core hS hc.core.listLike, hT'.taken hc.core hS⟩
        · exact ho.back (Bases.keeps h (hbase hp).whole hp.ready.core) (Bases.same h).cfg
            ((hbase hp).bases h).ready.core
  · refine ⟨fun sl e ho he hp => hA.slack sl e ho he, fun t ht hsearch => ?_⟩
    have hst : Bases env (fun _ => False) s t := Relation.ReflTransGen.trans hq.bases ht
    rw [hT.sizeFor_list, hT.alignFor_list]
    obtain ⟨h1, h2, h3⟩ := hA.serve t hst hsearch
    exact ⟨fun h e he _ => h1 h e he, fun sl h h' h'' _ => h2 sl h h' h'', fun hf hx _ => h3 hf hx⟩

theorem allocateMoreSlots_ensures (hlen : s.BacksList env len) (hT : Tidy env s)
    (hA : GrowStops env A s) : Ensures env ok (allocateMoreSlotsBy env len)
      (fun _ t => Inners env (fun _ => False) s t) A s := by
  refine (allocateMoreSlots_cases hlen hT hA).post ?_
  rintro _ t (h | h)
  exacts [Bases.inners h, .single (.growth h)]

section Call

/-- What a call of the allocator relies on for its stops to be known. -/
structure Fit (env : Env) (r : Request) (s : State) : Prop where
  served : Served env (s.sizeFor env r) (s.alignFor r) r
  core : Core env s
  live : Live env s
  «open» : r.protectAllocList = false → Open env s

structure WholeStops (env : Env) (r : Request) (A : Stop → Prop) (s : State) : Prop extends
    CallStops s r A where
  slack : ∀ sl e, Overwritten env s sl → SlackReport sl e → A e
  serve : ∀ t, Silents env (fun _ => False) s t →
    ServeStops env (s.sizeFor env r) (s.alignFor r) r A t
  list : ∀ t, Silents env (fun _ => False) s t →
    ServeStops env (t.listNeed env) 1 (t.listRequest env) A t
  loops : ∀ t, Silents env (fun _ => False) s t → 2 ^ 32 ≤ t.allocListSize → A .loops

theorem ServeStops.imp {al : ℕ} {B : Prop} (h : ServeStops env n al r A s) :
    ServeStops env n al r (fun e => B → A e) s :=
  ⟨fun hs e he _ => h.shortage hs e he, fun sl h1 h2 h3 _ => h.layout sl h1 h2 h3,
    fun hf hx _ => h.memory hf hx⟩

theorem Quiet.silents {b : Book} (h : Quiet s b) : Silents env ok s { s with book := b } :=
  h.bases.inners.silents

/-- The state in which an allocation searches the slots, if it gets there. -/
abbrev State.searchedBy (env : Env) (len : ℕ → ℕ) (r : Request) (s : State) : Option State :=
  s.searchedWith env (allocateMoreSlotsBy env len) r

theorem allocate_wp {B : Prop}
    (hlen : ∀ t, s.searchedBy env len r = some t → t.BacksChunk env len (s.sizeFor env r) r)
    (hlist : s.BacksList env len) (huser : r.allocator.type ≠ .internal) (hT : Tidy env s)
    (hB : B → Fit env r s) (hA : B → WholeStops env r A s) :
    Wp (allocateBy env len r)
      (fun p t => Allocated env (Inners env) (Asked env (s.sizeFor env r) (s.alignFor r) r) r s p t)
      (fun e _ => B → A e) s := by
  set A' : Stop → Prop := fun e => B → A e with hA'
  have hsil : ∀ (b : Book) (t : State), Quiet s b →
      Inners env (fun _ => False) (State.entered env r.protectAllocList { s with book := b }) t →
      Silents env (fun _ => False) s t := fun b t hq ht =>
    (hq.silents.trans silents_entered).trans (Inners.silents ht)
  have hback : ∀ {t : State}, Silents env (fun _ => False) s t → B → ∀ {sl : Slot},
      Overwritten env t sl → Overwritten env s sl := by
    intro t ht hb sl ho
    have hc := Silents.calm (fun _ => False.elim) (hB hb).core ht
    exact ho.back hc.keeps hc.cfg hc.core
  refine Wp.mono (allocateWith_wp _ _ (A := A') (B := B) within_inners hlen (Or.inl rfl) served_of_asked
    (fun _ h => absurd h huser) hT (fun hb => ⟨⟨(hB hb).served.whole, (hB hb).core, (hB hb).live⟩,
      (hB hb).open⟩) (fun _ b hq b' t hq' ht => ?_)
    (fun b hq => ⟨fun sl e ho he hb => ?_, fun t ht _ => ?_⟩)
    ⟨fun h1 h2 hb => (hA hb).malloc0 h1 h2, fun h1 h2 hb => (hA hb).alignment h1 h2⟩
    fun h hb => absurd h (hB hb).core.allocList_pos.ne') (fun _ _ => id) fun e _ he hb => he hb hb
  · have hsize : t.allocListSize = s.allocListSize := by
      rw [ht]
      cases r.protectAllocList <;> rfl
    have hlist := (State.backsList_congr hsize).mpr hlist
    have ht := hsil b t hq (ht ▸ hq'.bases.inners)
    by_cases hb : B
    · have hstops := hA hb
      refine (allocateMoreSlots_ensures hlist (hT.silents ht) ⟨fun sl e ho he => ?_, fun u hu _ => ?_,
        hstops.loops t ht⟩).mono (fun _ _ => id) fun e he _ => he
      · exact hstops.slack sl e (hback ht hb ho) he
      · have := hstops.list u (ht.trans (Inners.silents (Bases.inners hu)))
        rwa [State.listNeed_congr (Bases.allocList hu).2,
          State.listRequest_congr (Bases.allocList hu).2] at this
    · exact (allocateMoreSlots_ensures (A := fun _ => True) hlist (hT.silents ht)
        ⟨fun _ _ _ _ => trivial, fun _ _ _ => ⟨fun _ _ _ => trivial, fun _ _ _ _ => trivial,
          fun _ _ => trivial⟩, fun _ => trivial⟩).mono (fun _ _ => id) fun e _ hb' => absurd hb' hb
  · exact (hA hb).slack sl e (hback (hsil b _ hq .refl) hb ho) he
  · by_cases hb : B
    · exact ((hA hb).serve t (hsil b t hq ht)).imp
    · exact ⟨fun _ _ _ h => absurd h hb, fun _ _ _ _ h => absurd h hb,
      fun _ _ h => absurd h hb⟩

end Call

end Duma

import Duma.Refine.Chunk
import Duma.Refine.Search
import Duma.Refine.Slack

/-! # Handing out memory

From the slots to a block: the search, a new chunk where there is no free slot, the split and the
layout of the block.
-/

namespace Duma

variable {env : Env} {ok : ℕ → Prop} {s s' : State} {a i j n al : ℕ} {sl new : Slot} {r : Request}
  {A : Stop → Prop} {l : Layout} {emptySlot : Option ℕ} {len : ℕ → ℕ}

theorem State.useSlot_eq (s : State) : s.useSlot =
    { s with book := { s.book with unUsedSlots := Word.sub s.book.unUsedSlots 1 } } := rfl

theorem splitSlot_ensures (hi : s.slots[i]? = some sl) (hs : sl.state = .free)
    (hj : ∀ j', emptySlot = some j' → ∃ e, s.slots[j']? = some e ∧ e.state = .empty)
    (hok : ok n) (hA : emptySlot = none → n < sl.internalSize → A .nullSlot) :
    Ensures env ok (splitSlot env i emptySlot n) (fun _ t => Bases env ok s t ∧
      ∃ sl', t.slots[i]? = some sl' ∧ sl'.state = .free ∧
        sl'.internalSize = min n sl.internalSize ∧ sl'.internalAddress = sl.internalAddress) A s := by
  refine (readSlot_ensures hi).bind_same fun v hv => ?_
  subst hv
  refine Ensures.ite (fun hn => ?_) fun hn => ⟨.refl, v, hi, hs, by omega, rfl⟩
  cases hjc : emptySlot with
  | none => exact Ensures.throw fun _ => hA hjc hn
  | some j =>
    obtain ⟨e, hje, he⟩ := hj j hjc
    have hij : i ≠ j := by
      rintro rfl
      rw [hi] at hje
      cases hje
      rw [hs] at he; cases he
    have hi' : (s.putSlot j (v.surplus n)).slots[i]? = some v := by
      rw [State.getElem?_putSlot hje, if_neg (Ne.symm hij), hi]
    refine Wp.bind_iff.mpr (modifySlot_wp hje ?_ fun hO hp => absurd hp.ready.open hO)
    refine Wp.bind_iff.mpr (modifySlot_wp hi' ?_ fun hO hp =>
      absurd (Open.putSlot.mpr hp.ready.open) hO)
    refine modifyBook_wp.mpr ?_
    have hslot : (s.splitAt i v j n).useSlot.slots[i]? = some { v with internalSize := n } := by
      rw [State.useSlot_slots, State.splitAt, State.getElem?_putSlot hi', if_pos rfl]
    have heq := State.useSlot_eq (s.splitAt i v j n)
    refine ⟨?_, { v with internalSize := n }, ?_, hs, ?_, rfl⟩
    · exact heq ▸ .single (.split hi hs hje he hn hok)
    · exact heq ▸ hslot
    · simp only; omega

section Place

theorem MprotectOk.setPages {lo hi : ℕ} {p : Page} (h : MprotectOk env s a n)
    (hlo : env.pageSize ∣ lo) (hhi : env.pageSize ∣ hi) (hp : p ≠ .unmapped) :
    MprotectOk env (s.setPages env lo hi p) a n := by
  refine ⟨h.dvd, h.le, fun x h1 h2 => ?_⟩
  rw [State.setPages_page hlo hhi]
  split
  exacts [hp, h.mapped x h1 h2]

/-- The layout fits and opens nothing outside the region. -/
def Sound (env : Env) (n al : ℕ) (r : Request) (sl : Slot) : Prop :=
  n ≤ sl.internalSize ∧ r.Contained env al sl.internalAddress

theorem placeBlock_ensures (hi : s.slots[i]? = some sl) (hs : sl.state = .free)
    (hfit : n ≤ env.taskSize → sl.internalSize = n)
    (hS : (∀ m, ok m → WholePages env m) → Served env n al r)
    (hA : Pre env ok s → ¬ Sound env n al r sl → A (.abort .mprotectFailed)) :
    Ensures env ok (placeBlock env sl.internalAddress n al r)
      (fun l t => l = layoutFor env sl.internalAddress n al r ∧
        (r.userSize ≠ 0 → openEnd env sl.internalAddress n r l ≤ env.taskSize) ∧
        t = s.placed env sl.internalAddress n r l) A s := by
  have fits : Pre env ok s → Sound env n al r sl → sl.RegionOk env ∧ sl.internalSize = n ∧
      ∀ a m, env.pageSize ∣ a → env.pageSize ∣ m → sl.internalAddress ≤ a →
        a + m ≤ sl.internalAddress + n → MprotectOk env s a m := fun hp hso => by
    have hr := (hp.ready.core.slot hi).region (hs.trans_ne (by decide))
    have hle := hr.le
    have hn := hfit (by have := hso.1; omega)
    exact ⟨hr, hn, fun a m ha hm h1 h2 =>
      hp.ready.core.mprotectOk hi (hs.trans_ne (by decide)) ha hm h1 (by omega)⟩
  have fail : ∀ {t : State} {a m : ℕ}, ¬ MprotectOk env t a m →
      (Pre env ok s → Sound env n al r sl → MprotectOk env t a m) →
      Pre env ok s → A (.abort .mprotectFailed) := fun hno hyes hp =>
    hA hp fun hso => hno (hyes hp hso)
  have ht := env.taskSize_le
  have hP := env.pageSize_pos
  refine Wp.ite (fun h0 => ?_) fun h0 => ?_
  · refine Wp.bind_iff.mpr (mprotect_wp (fun _ => ?_) fun hno => fail hno fun hp hso => ?_)
    · have hl : layoutZero env sl.internalAddress = layoutFor env sl.internalAddress n al r := by
        rw [layoutFor, if_pos h0]
      refine ⟨hl, fun h => absurd h0 h, ?_⟩
      rw [State.placed, if_pos h0]
    · obtain ⟨hr, hn, hok⟩ := fits hp hso
      have hle := hr.le
      have hq : (layoutZero env sl.internalAddress).protAddr = sl.internalAddress := rfl
      rw [hq, Word.add_eq (by omega), Word.sub_eq (by omega) (by omega),
        Nat.add_sub_cancel_left]
      exact hok _ _ hr.dvd (hn ▸ hr.size_dvd) le_rfl le_rfl
  have geo := fun hp hso => (hS hp.whole).fits (fits hp hso).1 (fits hp hso).2.1 h0
  refine Wp.ite (fun hb => ?_) fun hb => ?_
  · set l := layoutAbove env sl.internalAddress n al r.userSize with hl
    have hl' : l = layoutFor env sl.internalAddress n al r := by
      rw [layoutFor, if_neg h0, if_pos hb]
    have bounds : Pre env ok s → Sound env n al r sl → sl.internalAddress ≤ l.protAddr ∧
        l.protAddr ≤ sl.internalAddress + n ∧ env.pageSize ∣ l.protAddr := fun hp hso => by
      obtain ⟨hn', hf⟩ := geo hp hso
      obtain ⟨u, q, he, -, h1, h2, h3, -, h5⟩ := hf.above
      rw [← hn'] at he h5
      rw [hl, he]
      exact ⟨by simp only; omega, by simp only; omega, h2⟩
    refine Wp.bind_iff.mpr (mprotect_wp (fun hok₁ => ?_) fun hno => fail hno fun hp hso => ?_)
    · refine Wp.bind_iff.mpr (mprotect_wp (fun _ => ?_) fun hno => fail hno fun hp hso => ?_)
      · refine ⟨hl', fun _ => ?_, ?_⟩
        · rw [openEnd, if_pos hb]
          exact hok₁.le
        · rw [State.placed, if_neg h0, if_pos hb]
      · obtain ⟨hr, hn, hok⟩ := fits hp hso
        obtain ⟨h1, h2, h3⟩ := bounds hp hso
        have hle := hr.le
        rw [Word.add_eq (x := sl.internalAddress) (by omega), Word.sub_eq (by omega) h2]
        refine MprotectOk.setPages ?_ hr.dvd (Nat.dvd_add hr.dvd (Env.dvd_roundUp _)) (by decide)
        exact hok _ _ h3 (Nat.dvd_sub (Nat.dvd_add hr.dvd (hn ▸ hr.size_dvd)) h3) h1 (by omega)
    · obtain ⟨hr, hn, hok⟩ := fits hp hso
      obtain ⟨h1, h2, h3⟩ := bounds hp hso
      have hle := hr.le
      rw [Word.sub_eq (by omega) h1]
      exact hok _ _ hr.dvd (Nat.dvd_sub h3 hr.dvd) le_rfl (by omega)
  · set l := layoutBelow env sl.internalAddress al with hl
    have hl' : l = layoutFor env sl.internalAddress n al r := by
      rw [layoutFor, if_neg h0, if_neg hb]
    have bounds : Pre env ok s → Sound env n al r sl →
        l.userAddr = sl.internalAddress + env.pageSize ∧ l.protAddr = sl.internalAddress :=
      fun hp hso => by
        obtain ⟨hn', hf⟩ := geo hp hso
        obtain ⟨u, q, he, -, h1, h2, -, -, -, h6, -⟩ := hf.below
        have hu := h6 (by
          rcases hso.2 with hc | hc | hc
          exacts [absurd hc h0, absurd hc hb, hc])
        rw [hl, he]
        exact ⟨hu, by simp only; omega⟩
    refine Wp.bind_iff.mpr (mprotect_wp (fun hok₁ => ?_) fun hno => fail hno fun hp hso => ?_)
    · refine Wp.bind_iff.mpr (mprotect_wp (fun _ => ?_) fun hno => fail hno fun hp hso => ?_)
      · refine ⟨hl', fun _ => ?_, ?_⟩
        · rw [openEnd, if_neg hb]
          exact hok₁.le
        · rw [State.placed, if_neg h0, if_neg hb]
      · obtain ⟨hr, hn, hok⟩ := fits hp hso
        obtain ⟨h1, h2⟩ := bounds hp hso
        have hle := hr.le
        have hPn : env.pageSize ≤ n := Nat.le_of_dvd (hS hp.whole).pos_dvd.1 (hS hp.whole).pos_dvd.2
        have hu : env.pageSize ∣ l.userAddr := h1 ▸ Nat.dvd_add hr.dvd dvd_rfl
        refine MprotectOk.setPages ?_ hu (Nat.dvd_add hu (Env.dvd_roundUp _)) (by decide)
        rw [h1, Word.sub_eq (by omega) (by omega), Nat.add_sub_cancel_left]
        exact hok _ _ hr.dvd dvd_rfl le_rfl (by omega)
    · obtain ⟨hr, hn, hok⟩ := fits hp hso
      obtain ⟨h1, h2⟩ := bounds hp hso
      have hle := hr.le
      have hPn : env.pageSize ≤ n := Nat.le_of_dvd (hS hp.whole).pos_dvd.1 (hS hp.whole).pos_dvd.2
      rw [h1, h2, Word.sub_eq (x := sl.internalAddress + env.pageSize) (by omega) (by omega),
        Nat.add_sub_cancel_left, Word.sub_eq (by omega) hPn]
      exact hok _ _ (Nat.dvd_add hr.dvd dvd_rfl) (Nat.dvd_sub (hn ▸ hr.size_dvd) dvd_rfl) (by omega)
        (by omega)

end Place

section Slack

structure SlackReady (env : Env) (s : State) (sl : Slot) : Prop where
  «open» : Open env s
  placed : sl.Placed env
  region : sl.RegionOk env
  live : ∀ ⦃x⦄, sl.Live x → s.page env x = .readWrite
  apart : ∀ ⦃lo hi : ℕ⦄, lo < hi → (∀ x, lo ≤ x → x < hi → sl.Owns x) →
    hi ≤ s.allocList ∨ s.allocList + s.allocListSize ≤ lo

theorem initSlack_wp {B : Prop} {new : Slot} (hi : s.slots[i]? = some sl)
    (hnew : new = { sl with
      slackfill := if env.explicitInit then s.cfg.slackfill else sl.slackfill })
    (hB : B → SlackReady env s new) :
    Wp (initSlack env i) (fun _ t => t = (s.putSlot i new).slacked new s.cfg.slackfill)
      (fun e _ => B → A e) s := by
  have hstate : sl.state = new.state := by rw [hnew]
  have hi' : (s.putSlot i new).slots[i]? = some new := by rw [State.getElem?_putSlot hi, if_pos rfl]
  have rest : Wp (do
      let sl ← readSlot env i
      if sl.userSize = 0 then pure ()
      else
        storeRange env sl.accessArea.1 sl.userAddress fun _ => s.cfg.slackfill
        storeRange env sl.userEnd sl.accessArea.2 fun _ => s.cfg.slackfill : M Unit)
      (fun _ t => t = (s.putSlot i new).slacked new s.cfg.slackfill)
      (fun e _ => B → A e) (s.putSlot i new) := by
    refine Wp.bind_iff.mpr (readSlot_wp hi' (Wp.ite (fun h0 => ?_) fun h0 => ?_) fun hO hb =>
      absurd (Open.putSlot.mpr (hB hb).open) hO)
    · exact (if_pos h0).symm
    have live : ∀ lo hi, B → (∀ x, lo ≤ x → x < hi → new.Slack x) →
        (∀ x, lo ≤ x → x < hi → s.page env x = .readWrite) ∧
          (lo < hi → hi ≤ s.allocList ∨ s.allocList + s.allocListSize ≤ lo) := fun lo hi hb hx =>
      ⟨fun x h1 h2 => (hB hb).live (hx x h1 h2).1, fun hlt => (hB hb).apart hlt fun x h1 h2 =>
        (hB hb).placed.owns_of_live (hB hb).region (hx x h1 h2).1⟩
    have slack := fun hb x => (hB hb).placed.slack_iff (x := x) (hB hb).region h0
    refine Wp.bind_iff.mpr (Wp.mono (storeRange_under (B := B) fun hb => ?_) ?_ fun _ _ => id)
    · have := live new.accessArea.1 new.userAddress hb fun x h1 h2 =>
        (slack hb x).mpr (Or.inl ⟨h1, h2⟩)
      simpa using this
    · rintro _ t rfl
      refine Wp.mono (storeRange_under (B := B) fun hb => ?_) ?_ fun _ _ => id
      · have := live new.userEnd new.accessArea.2 hb fun x h1 h2 =>
          (slack hb x).mpr (Or.inr ⟨h1, h2⟩)
        simpa [State.store, State.page] using this
      · rintro _ t rfl
        exact (if_neg h0).symm
  refine Wp.bind_iff.mpr (Wp.get_iff.mpr (Wp.ite (fun hx => Wp.bind_iff.mpr ?_) fun hx => ?_))
  · refine modifySlot_wp hi ?_ fun hO hb => absurd (hB hb).open hO
    rw [if_pos hx] at hnew
    rw [← hnew]
    exact rest
  · rw [if_neg hx] at hnew
    have hself : s.putSlot i new = s := State.putSlot_self (hnew ▸ hi)
    rw [hself] at rest ⊢
    exact rest

end Slack

theorem takeSlot_ensures (hi : s.slots[i]? = some sl) (hs : sl.state = .free)
    (hfit : n ≤ env.taskSize → sl.internalSize = n)
    (hS : (∀ m, ok m → WholePages env m) → Served env n al r)
    (hA : Pre env ok s → ¬ Sound env n al r sl → A (.abort .mprotectFailed)) :
    Ensures env ok (takeSlot env i n al r)
      (fun a t => ∃ l, Take env n al r i l s t ∧ a = l.userAddr) A s := by
  refine (readSlot_ensures hi).bind_same fun v hv => ?_
  subst hv
  refine Wp.seq (placeBlock_ensures hi hs hfit hS hA) ?_
  rintro l t ⟨hl, ho, rfl⟩
  have hT : Take env n al r i l s (s.took env i v n r l) := .intro hi hs hfit hl ho
  obtain ⟨pages, hpl⟩ : ∃ pages, s.placed env v.internalAddress n r l = { s with pages } :=
    ⟨_, State.placed_eq _ _ _ _ _⟩
  obtain ⟨mem, trace, htook, -⟩ := @State.took_eq env s i n v r l
  have hpage : ∀ x, (s.took env i v n r l).page env x = pages.get env.pageSize x := fun x => by
    rw [State.took_page, hpl]; rfl
  set taken := v.taken l r (s.recordedLine env r.site) with htaken
  have hready : Pre env ok s →
      SlackReady env (State.putSlot { s with pages } i taken) (v.handed env s l r) := fun hp => by
    have hC := hp.ready.core
    obtain ⟨sl', new, hT'⟩ := hT.taken hC (hS hp.whole)
    obtain rfl : v = sl' := Option.some.inj (hi.symm.trans hT'.old)
    obtain rfl := hT'.new_eq
    refine ⟨fun x h1 h2 => ?_, hT'.placed, hT'.region', fun x hx => ?_, fun lo hi' hlt hx => ?_⟩
    · rw [State.putSlot_page]
      have hO := hT'.open hC hp.ready.open x
      rw [hpage, htook] at hO
      exact hO (by simpa using h1) (by simpa using h2)
    · rw [State.putSlot_page]
      exact (hpage x).symm.trans (hT'.live hx)
    · simp only [State.putSlot_allocList, State.putSlot_allocListSize]
      exact hC.list_apart hi (fun hL => by rw [hL.state] at hs; cases hs) hlt hx
  rw [hpl]
  refine Wp.bind_iff.mpr (Wp.get_iff.mpr (Wp.bind_iff.mpr (modifySlot_wp (s := { s with pages })
    hi ?_ fun hO hp => absurd (Open.putSlot.mp (hready hp).open) hO)))
  have hi' : (State.putSlot { s with pages } i taken).slots[i]? = some taken :=
    (State.getElem?_putSlot (s := { s with pages }) hi).trans (if_pos rfl)
  refine Wp.bind_iff.mpr (Wp.mono (@initSlack_wp env _ i taken _ (Pre env ok s) (v.handed env s l r) hi'
    ?_ hready) ?_ fun _ _ => id)
  · rw [State.putSlot_cfg]
    rfl
  · rintro _ t rfl
    refine ⟨l, ?_, rfl⟩
    rw [State.putSlot_putSlot_of_state (by rfl), State.putSlot_cfg]
    have := hT
    rw [State.took, hpl] at this
    exact this

/-- The slots suffice for a request of `n` bytes, whether it needs a chunk, a split or neither. -/
def State.Supplied (s : State) (n : ℕ) : Prop :=
  2 ≤ s.count .empty ∨
    (1 ≤ s.count .empty ∧ ∃ sl ∈ s.slots, sl.state = .free ∧ n ≤ sl.internalSize) ∨
    ∃ sl ∈ s.slots, sl.state = .free ∧ sl.internalSize = n

theorem State.two_le_count {st : SlotState} (hi : s.slots[i]? = some sl) (hs : sl.state = st)
    (hj : s.slots[j]? = some e) (he : e.state = st) (hij : i < j) : 2 ≤ s.count st := by
  have hlen := (List.getElem?_eq_some_iff.mp hi).1
  have hsl : sl ∈ s.slots.take j := List.mem_of_getElem? (i := i) (by
    rw [List.getElem?_take_of_lt hij, hi])
  have hel : e ∈ s.slots.drop j := List.mem_of_getElem? (i := 0) (by
    rw [List.getElem?_drop, Nat.add_zero, hj])
  have h1 : 0 < (s.slots.take j).countP (·.state == st) :=
    List.countP_pos_iff.mpr ⟨sl, hsl, beq_iff_eq.mpr hs⟩
  have h2 : 0 < (s.slots.drop j).countP (·.state == st) :=
    List.countP_pos_iff.mpr ⟨e, hel, beq_iff_eq.mpr he⟩
  rw [State.count, ← List.take_append_drop j s.slots, List.countP_append]
  omega

/-- The slots suffice just if the search finds those that the rest of the way takes. -/
theorem State.supplied_iff : s.Supplied n ↔
    ((searchSlots n s.slots 0 Found.none).fullSlot = none →
      (searchSlots n s.slots 0 Found.none).emptySlot0.isSome ∧
        (searchSlots n s.slots 0 Found.none).emptySlot1.isSome) ∧
    ∀ i sl, (searchSlots n s.slots 0 Found.none).fullSlot = some (i, sl) → n < sl.internalSize →
      (searchSlots n s.slots 0 Found.none).emptySlot0.isSome := by
  obtain ⟨hv, hend⟩ := @searchSlots_spec n s.slots
  set f := searchSlots n s.slots 0 Found.none
  have complete : (∀ i sl, f.fullSlot = some (i, sl) → n < sl.internalSize) →
      f.Complete n s.slots := fun h => hend.resolve_left fun ⟨i, sl, hf, hn⟩ =>
    (h i sl hf).ne' hn
  constructor
  · refine fun hsup => ⟨fun hf => ?_, fun i sl hf hlt => ?_⟩
    · have hc := complete fun i sl h => by
        rw [hf] at h
        cases h
      have hnone : ∀ sl ∈ s.slots, sl.state = .free → ¬ n ≤ sl.internalSize :=
        fun sl hm hs hle => by
          obtain ⟨i', b, hf', -⟩ := hc.best sl hm hs hle
          rw [hf] at hf'
          cases hf'
      have h2 : 2 ≤ s.count .empty := by
        rcases hsup with h2 | ⟨-, sl, hm, hs, hn⟩ | ⟨sl, hm, hs, hn⟩
        exacts [h2, absurd hn (hnone sl hm hs), absurd hn.ge (hnone sl hm hs)]
      refine ⟨?_, ?_⟩
      · rw [Option.isSome_iff_ne_none]
        intro h0
        have : s.count .empty = 0 := hc.empty0 h0
        omega
      · rw [Option.isSome_iff_ne_none]
        intro h1
        have : s.count .empty ≤ 1 := hc.empty1 h1
        omega
    · have hc := complete fun i' sl' h => by
        rw [hf] at h
        cases h
        exact hlt
      rw [Option.isSome_iff_ne_none]
      intro h0
      have he : s.count .empty = 0 := hc.empty0 h0
      rcases hsup with h2 | ⟨h1, -⟩ | ⟨sl', hm, hs', hn⟩
      · omega
      · omega
      · obtain ⟨i', b, hf', hle'⟩ := hc.best sl' hm hs' hn.ge
        rw [hf] at hf'
        cases hf'
        omega
  · rintro ⟨hnone, hsome⟩
    cases hf : f.fullSlot with
    | none =>
      obtain ⟨h0, h1⟩ := hnone hf
      obtain ⟨i, h0⟩ := Option.isSome_iff_exists.mp h0
      obtain ⟨j, h1⟩ := Option.isSome_iff_exists.mp h1
      obtain ⟨⟨e, hj, he⟩, i', hi', hij⟩ := hv.empty1 h1
      obtain ⟨sl, hi, hs⟩ := hv.empty0 hi'
      refine Or.inl ?_
      rcases Nat.lt_or_gt_of_ne hij with hlt | hlt
      exacts [State.two_le_count hi hs hj he hlt, State.two_le_count hj he hi hs hlt]
    | some v =>
      obtain ⟨i, sl⟩ := v
      obtain ⟨hi, hs, hle⟩ := hv.full hf
      rcases hle.eq_or_lt with heq | hlt
      · exact Or.inr (Or.inr ⟨sl, List.mem_of_getElem? hi, hs, heq.symm⟩)
      · obtain ⟨j, h0⟩ := Option.isSome_iff_exists.mp (hsome i sl hf hlt)
        obtain ⟨e, hj, he⟩ := hv.empty0 h0
        exact Or.inr (Or.inl ⟨State.count_pos_iff.mpr ⟨e, List.mem_of_getElem? hj, he⟩, sl,
          List.mem_of_getElem? hi, hs, hle⟩)
/-- The stops for want of an empty slot. -/
inductive Shortage : Stop → Prop
  | noEmptySlot0 : Shortage (.abort (.noEmptySlot 0))
  | noEmptySlot1 : Shortage (.abort (.noEmptySlot 1))
  | nullSlot : Shortage .nullSlot

structure ServeStops (env : Env) (n al : ℕ) (r : Request) (A : Stop → Prop) (s : State) : Prop where
  shortage : ¬ s.Supplied n → ∀ e, Shortage e → A e
  layout : ∀ sl : Slot, sl.state = .free → (n ≤ sl.internalSize ∨
    sl.internalSize = createdSize env n r ∧ createdSize env n r ≤ env.taskSize) →
    ¬ Sound env n al r sl → A (.abort .mprotectFailed)
  memory : r.fail = .failEnv → s.cfg.mallocFailexit = true →
    A (.abort (.mmapFailed (createdSize env n r)))

/-- The rest of the way, once there is a free slot to take the memory from. -/
theorem serveSlot_ensures (hi : s.slots[i]? = some sl) (hs : sl.state = .free)
    (hj : ∀ j', emptySlot = some j' → ∃ e, s.slots[j']? = some e ∧ e.state = .empty)
    (hok : ok n) (hS : (∀ m, ok m → WholePages env m) → Served env n al r)
    (hfit : n ≤ env.taskSize → n ≤ sl.internalSize)
    (hA : emptySlot = none → n < sl.internalSize → A .nullSlot)
    (hA' : ¬ Sound env n al r sl → A (.abort .mprotectFailed)) :
    Ensures env ok (do splitSlot env i emptySlot n; takeSlot env i n al r)
      (fun a t => ∃ l u, Bases env ok s u ∧ Take env n al r i l u t ∧ a = l.userAddr) A s := by
  refine (splitSlot_ensures hi hs hj hok hA).bind (fun _ _ h => h.1.inners) ?_
  rintro - t ⟨hb, sl', hi', hs', hsize, haddr⟩
  refine (takeSlot_ensures hi' hs' (fun hn => ?_) hS fun _ hso => ?_).post ?_
  · have := hfit hn
    omega
  · refine hA' fun h => hso ⟨?_, haddr ▸ h.2⟩
    have := h.1
    omega
  · rintro a u ⟨l, hT, ha⟩
    exact ⟨l, t, hb, hT, ha⟩

/-- There is no free slot of `n` bytes, and no chunk to fill an empty one with. -/
structure NoMemory (env : Env) (len : ℕ → ℕ) (n : ℕ) (r : Request) (s : State) : Prop where
  full : (searchSlots n s.slots 0 Found.none).fullSlot = none
  empty0 : (searchSlots n s.slots 0 Found.none).emptySlot0.isSome
  empty1 : (searchSlots n s.slots 0 Found.none).emptySlot1.isSome
  chunk : NoChunk env len n r s

/-- A chunk that the request takes is mapped in full, or not at all. -/
def State.BacksChunk (env : Env) (len : ℕ → ℕ) (n : ℕ) (r : Request) (s : State) : Prop :=
  (searchSlots n s.slots 0 Found.none).fullSlot = none → Backs env len (createdSize env n r)

theorem allocateFromSlots_ensures
    (hplain : ∀ (i : ℕ) (sl : Slot), s.slots[i]? = some sl → sl.state = .empty → sl.internalSize = 0)
    (hlen : s.BacksChunk env len n r) (hok : ok n)
    (hS : (∀ m, ok m → WholePages env m) → Served env n al r)
    (hA : ¬ NoMemory env len n r s → ServeStops env n al r A s) :
    Ensures env ok (allocateFromSlotsBy env len n al r)
      (fun a t => a = 0 ∧ Bases env (fun _ => False) s t ∧ (0 < n → NoMemory env len n r s) ∨
        ¬ NoMemory env len n r s ∧
          ∃ i l u, Bases env ok s u ∧ Take env n al r i l u t ∧ a = l.userAddr) A s := by
  refine readSlots_ensures.bind_same fun slots hslots => ?_
  subst hslots
  obtain ⟨hv, -⟩ := @searchSlots_spec n s.slots
  set f := searchSlots n s.slots 0 Found.none
  have rest : ∀ (i : ℕ) (emptySlot : Option ℕ) (sl : Slot) (t : State), Bases env ok s t →
      t.slots[i]? = some sl →
      (sl.internalSize = 0 → Bases env (fun _ => False) s t ∧ (0 < n → NoMemory env len n r s)) →
      (sl.internalSize ≠ 0 → ¬ NoMemory env len n r s) →
      (sl.state = .empty ∧ sl.internalSize = 0 ∨
        sl.state = .free ∧ (n ≤ env.taskSize → n ≤ sl.internalSize) ∧
          (emptySlot = none → n < sl.internalSize → A .nullSlot) ∧
          (¬ Sound env n al r sl → A (.abort .mprotectFailed))) →
      (∀ j, emptySlot = some j → ∃ e, t.slots[j]? = some e ∧ e.state = .empty) →
      Wp (do
        let sl ← readSlot env i
        if sl.internalSize ≠ 0 then
          splitSlot env i emptySlot n
          takeSlot env i n al r
        else pure 0 : M ℕ)
        (fun a u => a = 0 ∧ Bases env (fun _ => False) s u ∧ (0 < n → NoMemory env len n r s) ∨
          ¬ NoMemory env len n r s ∧
            ∃ i l v, Bases env ok s v ∧ Take env n al r i l v u ∧ a = l.userAddr)
        (fun e _ => Pre env ok s → A e) t := by
    intro i emptySlot sl t hb hi hno hmem hsl hj
    refine Ensures.from_inners hb.inners ((readSlot_ensures hi).bind_same fun v hv => ?_)
    subst hv
    refine Ensures.ite (fun h0 => ?_) fun h0 => Or.inl ⟨rfl, hno (not_not.mp h0)⟩
    obtain ⟨hs, hfit, hA1, hA2⟩ := hsl.resolve_left fun h => h0 h.2
    refine (serveSlot_ensures hi hs hj hok hS hfit hA1 hA2).post ?_
    rintro a u ⟨l, w, hw, hT⟩
    exact Or.inr ⟨hmem h0, i, l, w, hb.trans hw, hT⟩
  cases hf : f.fullSlot with
  | some p =>
    obtain ⟨i, sl⟩ := p
    obtain ⟨hi, hs, hle⟩ := hv.full hf
    have hmem : ¬ NoMemory env len n r s := fun hno => by
      have := hno.full
      rw [hf] at this
      cases this
    have hA := hA hmem
    dsimp only
    rw [hf]
    refine rest i f.emptySlot0 sl s .refl hi (fun _ => ⟨.refl, fun _ => by omega⟩)
      (fun _ => hmem) (Or.inr ⟨hs, fun _ => hle, fun h0 hlt => ?_,
      hA.layout sl hs (Or.inl hle)⟩) fun j hj => hv.empty0 hj
    refine hA.shortage (fun hsup => ?_) _ .nullSlot
    have := (State.supplied_iff.mp hsup).2 i sl hf hlt
    rw [h0] at this
    cases this
  | none =>
    have two := fun hsup => (State.supplied_iff.mp hsup).1 hf
    dsimp only
    rw [hf]
    cases h0 : f.emptySlot0 with
    | none =>
      have hmem : ¬ NoMemory env len n r s := fun hno => by
        have := hno.empty0
        rw [h0] at this
        cases this
      refine fun _ => (hA hmem).shortage (fun hsup => ?_) _ .noEmptySlot0
      have := (two hsup).1
      rw [h0] at this
      cases this
    | some i =>
      cases h1 : f.emptySlot1 with
      | none =>
        have hmem : ¬ NoMemory env len n r s := fun hno => by
          have := hno.empty1
          rw [h1] at this
          cases this
        refine fun _ => (hA hmem).shortage (fun hsup => ?_) _ .noEmptySlot1
        have := (two hsup).2
        rw [h1] at this
        cases this
      | some j =>
        obtain ⟨sl, hi, hs⟩ := hv.empty0 h0
        obtain ⟨⟨e, hj, he⟩, i', hi', hij⟩ := hv.empty1 h1
        obtain rfl : i = i' := Option.some.inj (h0.symm.trans hi')
        refine Wp.seq (createMore_ensures hi hs (hplain i sl hi hs) hj he hij (hlen hf) hok
          fun hno => (hA fun h => hno h.chunk).memory) ?_
        rintro _ t ⟨rfl, hb, ⟨sl', hi', hsl'⟩, hj'⟩
        refine rest i (some j) sl' t hb hi' (fun h => ?_) (fun h hno => ?_) ?_ fun j' hj'' => by
          cases hj''
          exact ⟨e, hj', he⟩
        · rcases hsl' with ⟨-, -, hno, hb'⟩ | ⟨-, hsize, hpos, -⟩
          exacts [⟨hb', fun _ => ⟨hf, Option.isSome_iff_exists.mpr ⟨_, h0⟩,
            Option.isSome_iff_exists.mpr ⟨_, h1⟩, hno⟩⟩, absurd (hsize ▸ h) hpos.ne']
        · rcases hsl' with ⟨-, h0, -⟩ | ⟨-, -, -, -, hno'⟩
          exacts [h h0, hno' hno.chunk]
        refine hsl'.imp (fun h => ⟨h.1, h.2.1⟩) ?_
        rintro ⟨hs', hsize, -, hle, hno'⟩
        refine ⟨hs', fun hn => hsize ▸ le_createdSize hn hle, nofun, ?_⟩
        exact (hA fun h => hno' h.chunk).layout sl' hs' (Or.inr ⟨hsize, hle⟩)

end Duma

import Duma.Runs.Heap

/-! # Blocks behind a call

The slot of a block that an allocation has returned, its pages and its bytes, the block that a
deallocation takes away, and what both keep of the other blocks.
-/

namespace Duma

variable {env : Env} {s t u : State} {r : Request} {n al i p q m x : ℕ} {l : Layout}
  {sl new : Slot} {site : Site} {allocator : Allocator} {v : Bool}

/-- The slot `i` of `t` is the one that a request made in `s` has got at address `p`. -/
structure Provided (env : Env) (r : Request) (s : State) (p : ℕ) (t : State) (i : ℕ) (new : Slot) :
    Prop where
  slot : t.slots[i]? = some new
  user : new.IsUser
  region : new.RegionOk env
  placed : new.Placed env
  addr : new.userAddress = p
  userSize : new.userSize = r.userSize
  allocator : new.allocator = r.allocator
  slackfill : env.explicitInit = true → new.slackfill = s.cfg.slackfill
  size : new.internalSize = s.sizeFor env r
  layout : layoutFor env new.internalAddress (s.sizeFor env r) (s.alignFor r) r =
    ⟨p, new.protAddress⟩
  live : ∀ ⦃x⦄, new.Live x → t.page env x = .readWrite
  dead : ∀ ⦃x⦄, new.Owns x → ¬ new.Live x → t.page env x = .noAccess
  slack : ∀ ⦃x⦄, new.Slack x → t.mem x = s.cfg.slackfill
  fill : r.fillByte ≠ -1 → ∀ ⦃x⦄, new.InBlock x → t.mem x = UInt8.ofInt r.fillByte
  fresh : ∀ sl, s.slots[i]? = some sl → ¬ sl.IsUser
  others : ∀ ⦃k : ℕ⦄ ⦃sl : Slot⦄, s.slots[k]? = some sl → sl.IsUser → t.slots[k]? = some sl ∧
    (∀ x, sl.Owns x → t.mem x = s.mem x) ∧
    ∀ x, sl.Owns x → t.page env x = s.page env x ∨ t.page env x = .readWrite
  back : ∀ ⦃k : ℕ⦄ ⦃sl : Slot⦄, k ≠ i → t.slots[k]? = some sl → sl.IsUser → s.slots[k]? = some sl
  safe : Safe env t

theorem State.filled_page : (s.filled r p).page env x = s.page env x := by
  unfold State.filled
  split <;> rfl

theorem State.filled_mem : (s.filled r p).mem x =
    if p ≠ 0 ∧ r.fillByte ≠ -1 ∧ r.userSize ≠ 0 ∧ p ≤ x ∧ x < p + r.userSize then
      UInt8.ofInt r.fillByte
    else s.mem x := by
  unfold State.filled
  by_cases h : p ≠ 0 ∧ r.fillByte ≠ -1 ∧ r.userSize ≠ 0
  · rw [if_pos h]
    simp only [State.store, h, ne_eq, not_false_eq_true, true_and]
  · rw [if_neg h, if_neg fun h' => h ⟨h'.1, h'.2.1, h'.2.2.1⟩]

theorem Safe.silents {ok : ℕ → Prop} (hok : ∀ n, ok n → WholePages env n) (h : Safe env s)
    (hs : Silents env ok s t) : Safe env t := by
  induction hs with
  | refl => exact h
  | tail _ hs ih => exact ih.silent hok hs

theorem Served'.outcome (h : Safe env s) (hS : s.Serves env (Served env) r)
    (hu : r.allocator.type ≠ .internal) (hs : Served' env r s p t) :
    (Safe env t ∧ Keeps env s t ∧ (p = 0 ∨ p = s.nullAddr env ∧ r.userSize = 0)) ∨
      ∃ i new, Provided env r s p t i new := by
  have silent : ∀ {t : State}, Silents env (fun _ => False) s t → Safe env t ∧ Keeps env s t :=
    fun ht => ⟨h.silents (fun _ => False.elim) ht,
      (Silents.calm (fun _ => False.elim) h.core ht).keeps⟩
  cases hs with
  | null hb hz hp ht =>
    obtain ⟨hst, hk⟩ := silent hb.silents
    exact Or.inl (ht ▸ ⟨hst, hk, hp.imp_right fun hp => ⟨hp, hz⟩⟩)
  | @served b u hb hh ht =>
    have hin : Silents env (fun _ => False) s
        (State.entered env r.protectAllocList { s with book := b }) :=
      hb.silents.trans silents_entered
    cases hh with
    | none hi hz =>
      obtain ⟨hst, hk⟩ := silent ((hin.trans (Inners.silents hi)).trans
        (silents_left (b := r.protectAllocList)))
      rw [hz, State.filled_zero] at ht
      exact Or.inl (ht ▸ ⟨hst, hk, Or.inl hz⟩)
    | @some i l v hi hT hpl =>
      have hs₀ := h.silents (fun _ => False.elim) hin
      have hv := hs₀.silents hS.whole (Inners.silents hi)
      have hc₀ := Silents.calm (fun _ => False.elim) h.core hin
      have hc₁ := Silents.calm hS.whole hs₀.core (Inners.silents hi)
      have hkeep := hc₀.keeps.trans hc₁.keeps
      have hcfg : v.cfg = s.cfg := hc₁.cfg.trans hc₀.cfg
      obtain ⟨sl, new, hTk⟩ := hT.taken hv.core hS
      have hsu := hv.take hS hu hT
      have hleft : Silents env (fun _ => False) u (u.left env r.protectAllocList) := silents_left
      have hl := Silents.calm (fun _ => False.elim) hsu.core hleft
      have hsl := hsu.silents (fun _ => False.elim) hleft
      have hi : u.slots[i]? = some new := by rw [hTk.slot, if_pos rfl]
      have hnew : new.IsUser := by
        rw [hTk.new_eq]
        exact ⟨rfl, hu⟩
      have haddr : new.userAddress = p := by rw [hpl, hTk.new_eq]; rfl
      have hsize : new.userSize = r.userSize := by rw [hTk.new_eq]; rfl
      have hslots : t.slots = (u.left env r.protectAllocList).slots := by
        rw [ht]
        unfold State.filled
        split <;> rfl
      have hit := hl.keeps.slot hi hnew
      have hpage : ∀ x, t.page env x = (u.left env r.protectAllocList).page env x := fun x => by
        rw [ht, State.filled_page]
      have hinter : new.internalAddress = sl.internalAddress := by rw [hTk.new_eq]; rfl
      have hblock : ∀ x, new.InBlock x → new.Owns x := fun x hx =>
        hTk.placed.owns_of_live hTk.region' (hTk.placed.live_of_inBlock hTk.region' hx)
      have hfill : ∀ x, ¬ new.InBlock x → t.mem x = (u.left env r.protectAllocList).mem x :=
        fun x hx => by
          rw [ht, State.filled_mem, if_neg fun hin => hx ⟨?_, ?_⟩]
          · rw [haddr]
            exact hin.2.2.2.1
          · rw [haddr, hsize]
            exact hin.2.2.2.2
      have hother : ∀ {k : ℕ} {old : Slot}, s.slots[k]? = some old → old.IsUser →
          i ≠ k ∧ u.slots[k]? = some old := by
        intro k old hk ho
        have hkv := hkeep.slot hk ho
        have hne : i ≠ k := by
          rintro rfl
          have hold := hTk.old
          rw [hkv] at hold
          cases hold
          have hfree := hTk.free
          rw [ho.1] at hfree
          cases hfree
        exact ⟨hne, by rw [hTk.slot, if_neg hne, hkv]⟩
      have hpos : p ≠ 0 := fun h0 => by
        have hown := hTk.placed.owns_user hTk.region'
        have hpos := hTk.region'.pos
        rw [haddr, h0] at hown
        exact absurd hown.1 (by omega)
      refine Or.inr ⟨i, new, ?_⟩
      exact {
        slot := hslots ▸ hit
        user := hnew
        region := hTk.region'
        placed := hTk.placed
        addr := haddr
        userSize := hsize
        allocator := by rw [hTk.new_eq]; rfl
        slackfill := fun hx => by
          rw [← hcfg, hTk.new_eq]
          exact if_pos hx
        size := by rw [hTk.new_eq]; exact hTk.size
        layout := by
          rw [hinter, ← hTk.layout, hpl, hTk.new_eq]
          rfl
        live := fun x hx => by
          rw [hpage, hl.keeps.page hi hnew (hTk.placed.owns_of_live hTk.region' hx)]
          exact hTk.live hx
        dead := fun x hx hno => by
          rw [hpage, hl.keeps.page hi hnew hx]
          exact hTk.dead hx hno
        slack := fun x hx => by
          rw [hfill x hx.2, hl.keeps.mem hi hnew (hTk.placed.owns_of_live hTk.region' hx.1),
            hTk.slack hx, hcfg]
        fill := fun hf x hx => by
          obtain ⟨h1, h2⟩ := hx
          rw [haddr] at h1 h2
          rw [hsize] at h2
          rw [ht, State.filled_mem, if_pos ⟨hpos, hf, by omega, h1, h2⟩]
        fresh := fun old hold ho => absurd rfl (hother hold ho).1
        others := fun k old hk ho => by
          obtain ⟨hne, hku⟩ := hother hk ho
          have hdis : ∀ x, old.Owns x → ¬ new.Owns x := fun x hx hx' =>
            hne (hsu.core.eq_of_owns hi hku hx' hx)
          have hkv := hkeep.slot hk ho
          refine ⟨hslots ▸ hl.keeps.slot hku ho, fun x hx => ?_, fun x hx => ?_⟩
          · rw [hfill x fun hb => hdis x hx (hblock x hb), hl.keeps.mem hku ho hx,
              hTk.mem fun hk' => hdis x hx (hTk.placed.owns_of_live hTk.region' hk'.1),
              hkeep.mem hk ho hx]
          · rw [hpage, hl.keeps.page hku ho hx, ← hkeep.page hk ho hx]
            exact hTk.outside (hdis x hx)
        back := fun k old hne hk ho => by
          have hku := hl.keeps.back (hslots ▸ hk) ho
          rw [hTk.slot, if_neg (Ne.symm hne)] at hku
          exact hkeep.back hku ho
        safe := by
          rw [ht]
          unfold State.filled
          split
          · exact ⟨hsl.core.congr rfl rfl rfl rfl rfl rfl, hsl.live, hsl.tidy.congr rfl rfl rfl⟩
          · exact hsl }

theorem Provided.addr_ne (h : Provided env r s p t i new) : p ≠ 0 := by
  have hown := h.placed.owns_user h.region
  have hpos := h.region.pos
  rw [h.addr] at hown
  have := hown.1
  omega

section Outcome

variable (h : Safe env s) (hS : s.Serves env (Served env) r) (hu : r.allocator.type ≠ .internal)
include h hS hu

theorem Served'.provided (hs : Served' env r s p t) (hp : p ≠ 0)
    (h0 : r.userSize ≠ 0 ∨ p ≠ s.nullAddr env) : ∃ i new, Provided env r s p t i new := by
  refine (hs.outcome h hS hu).resolve_left ?_
  rintro ⟨-, -, hz | ⟨hz, hr⟩⟩
  · exact hp hz
  · exact h0.elim (fun h0 => h0 hr) fun h0 => h0 hz

theorem Served'.fails (hs : Served' env r s 0 t) : Safe env t ∧ Keeps env s t := by
  rcases hs.outcome h hS hu with ⟨hst, hk, -⟩ | ⟨i, new, hP⟩
  · exact ⟨hst, hk⟩
  · exact absurd rfl hP.addr_ne

end Outcome

section Others

/-- The blocks of the program other than that of slot `i` are as they were, and there is no new
one. -/
structure KeepsOthers (env : Env) (i : ℕ) (s t : State) : Prop where
  slot : ∀ ⦃k : ℕ⦄ ⦃sl : Slot⦄, k ≠ i → s.slots[k]? = some sl → sl.IsUser → t.slots[k]? = some sl
  back : ∀ ⦃k : ℕ⦄ ⦃sl : Slot⦄, t.slots[k]? = some sl → sl.IsUser →
    k ≠ i ∧ s.slots[k]? = some sl
  page : ∀ ⦃k : ℕ⦄ ⦃sl : Slot⦄ ⦃x : ℕ⦄, k ≠ i → s.slots[k]? = some sl → sl.IsUser → sl.Owns x →
    t.page env x = s.page env x
  mem : ∀ ⦃k : ℕ⦄ ⦃sl : Slot⦄ ⦃x : ℕ⦄, k ≠ i → s.slots[k]? = some sl → sl.IsUser → sl.Owns x →
    t.mem x = s.mem x

theorem Keeps.keepsOthers (h : Keeps env s t) (h' : KeepsOthers env i t u) :
    KeepsOthers env i s u where
  slot _ _ hne hk hu := h'.slot hne (h.slot hk hu) hu
  back _ _ hk hu := ⟨(h'.back hk hu).1, h.back (h'.back hk hu).2 hu⟩
  page _ _ _ hne hk hu hx := (h'.page hne (h.slot hk hu) hu hx).trans (h.page hk hu hx)
  mem _ _ _ hne hk hu hx := (h'.mem hne (h.slot hk hu) hu hx).trans (h.mem hk hu hx)

theorem KeepsOthers.keeps (h : KeepsOthers env i s t) (h' : Keeps env t u) :
    KeepsOthers env i s u where
  slot _ _ hne hk hu := h'.slot (h.slot hne hk hu) hu
  back _ _ hk hu := h.back (h'.back hk hu) hu
  page _ _ _ hne hk hu hx := (h'.page (h.slot hne hk hu) hu hx).trans (h.page hne hk hu hx)
  mem _ _ _ hne hk hu hx := (h'.mem (h.slot hne hk hu) hu hx).trans (h.mem hne hk hu hx)

theorem Release.keepsOthers (hr : Release env i sl site s t) (hc : Core env s)
    (hi : s.slots[i]? = some sl) (hs : sl.state ≠ .empty) : KeepsOthers env i s t := by
  have hloc := hr.local hc hi hs
  have hout : ∀ {k : ℕ} {sl' : Slot} {x : ℕ}, k ≠ i → s.slots[k]? = some sl' → sl'.IsUser →
      sl'.Owns x → ¬ sl.Owns x := fun hne hk hu hx hx' => hne (hloc.inside hx' (hc.owns hk hx))
  refine ⟨fun k sl' hne hk _ => hloc.slot hne hk, fun k sl' hk hu => ?_,
    fun k sl' x hne hk hu hx => hloc.page (hout hne hk hu hx),
    fun k sl' x hne hk hu hx => hloc.mem (hout hne hk hu hx)⟩
  have hne : k ≠ i := by
    rintro rfl
    obtain ⟨new, hn, hst⟩ := hr.slot hi
    obtain rfl := Option.some.inj (hk.symm.trans hn)
    rcases hst with hst | hst <;> rw [hu.1] at hst <;> cases hst
  exact ⟨hne, hloc.back hne hk (by rw [hu.1]; nofun)⟩

theorem Core.userAddress_ne (h : Core env s) (hi : s.slots[i]? = some sl) (hu : sl.IsUser) :
    sl.userAddress ≠ 0 ∧ sl.userAddress ≠ s.nullAddr env := by
  have hwf := h.slot hi
  have hr := hwf.region (by rw [hu.1]; nofun)
  have hown := (hwf.placed hu.1).owns_user hr
  have hpos := hr.pos
  have hP := env.pageSize_pos
  refine ⟨fun h0 => ?_, fun h0 => h.not_null_of_owns (h.owns hi hown) ?_⟩
  · have := hown.1
    omega
  · rw [h0]
    unfold State.InNull State.nullAddr
    omega

/-- A deallocation takes away one block with the address, or there is none to take away. -/
theorem Deallocated.outcome (h : Safe env s) (hty : allocator.type ≠ .internal)
    (hd : Deallocated env p v allocator site s t) :
    (t = s ∧ (p = 0 ∨ p = s.nullAddr env)) ∨
      Safe env t ∧ ∃ i sl, s.slots[i]? = some sl ∧ sl.IsUser ∧ sl.userAddress = p ∧
        KeepsOthers env i s t := by
  cases hd with
  | null ha ht => exact Or.inl ⟨ht, ha⟩
  | @freed u h0 hf ht =>
    obtain ⟨hced, -, hi, hua, hnp, hty', hr⟩ := hf
    have hin : Silents env (fun _ => False) s _ :=
      silents_entered.trans (Inners.silents (Cedes.inners hced))
    have hcalm := Silents.calm (fun _ => False.elim) h.core hin
    have hsafe := h.silents (fun _ => False.elim) hin
    have hu := (hsafe.core.slot hi).isUser (hua ▸ h0) hnp (hty' ▸ hty)
    have hrel := hsafe.release hi hu hr
    have hleft : Silents env (fun _ => False) u (u.left env v) := silents_left
    rw [ht]
    exact Or.inr ⟨hrel.silents (fun _ => False.elim) hleft, _, _, hcalm.keeps.back hi hu, hu, hua,
      (hcalm.keeps.keepsOthers (hr.keepsOthers hsafe.core hi (by rw [hu.1]; nofun))).keeps
        (Silents.calm (fun _ => False.elim) hrel.core hleft).keeps⟩

theorem Deallocated.frees (h : Safe env s) (hty : allocator.type ≠ .internal)
    (hi : s.slots[i]? = some sl) (hu : sl.IsUser)
    (hd : Deallocated env sl.userAddress v allocator site s t) :
    Safe env t ∧ KeepsOthers env i s t := by
  have hne := h.core.userAddress_ne hi hu
  rcases hd.outcome h hty with ⟨-, ha⟩ | ⟨hst, j, sl', hj, -, hua, hk⟩
  · exact absurd ha (not_or.mpr hne)
  · obtain rfl := h.core.eq_of_user hi hj hua.symm hne.1
    exact ⟨hst, hk⟩

end Others

section Copied

theorem State.copied_slots : (s.copied q p n m).slots = s.slots := by
  unfold State.copied
  split <;> rfl

theorem State.copied_page : (s.copied q p n m).page env x = s.page env x := by
  unfold State.copied
  split <;> rfl

theorem State.copied_mem : (s.copied q p n m).mem x =
    if q ≤ x ∧ x < q + m then if x < q + n then s.mem (p + (x - q)) else 0 else s.mem x := by
  unfold State.copied
  dsimp only
  split
  · next hlt =>
    simp only [State.store]
    by_cases hx : q ≤ x ∧ x < q + m
    · rw [if_pos hx]
      by_cases hn : x < q + n
      · rw [if_neg (by omega), if_pos ⟨hx.1, hn⟩, if_pos hn]
      · rw [if_pos (by omega), if_neg hn]
    · rw [if_neg hx, if_neg (by omega), if_neg (by omega)]
  · next hlt =>
    simp only [State.store]
    by_cases hx : q ≤ x ∧ x < q + m
    · rw [if_pos hx, if_pos hx, if_pos (by omega)]
    · rw [if_neg hx, if_neg hx]

theorem Safe.copied (h : Safe env s) : Safe env (s.copied q p n m) :=
  Acts.safe (fun _ _ _ => id) h
    (copied_acts : Acts env (fun _ => True) (Served env) s (s.copied q p n m))

end Copied

end Duma

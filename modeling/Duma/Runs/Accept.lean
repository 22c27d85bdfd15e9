import Duma.Runs.Policy
import Duma.Runs.Realloc
import Duma.Runs.Slack

/-! # Pointers that `realloc` accepts

A `realloc` for which there is memory returns for every block that has a slot of its own and is not
too long for the copy.
-/

namespace Duma

variable {env : Env} {settings : Settings} {s t u : State} {w : World} {r : Request} {site : Site}
  {i j p q m n a al : ℕ} {sl new : Slot} {len : ℕ → ℕ}

section Grants

variable (env) (s) (r)

/-- The allocation takes a new chunk, which no `int` holds the length of. -/
def State.Widens : Prop := ∃ u, s.searchedBy env intSize r = some u ∧
  (searchSlots (s.sizeFor env r) u.slots 0 Found.none).fullSlot = none ∧
  2 ^ 31 ≤ createdSize env (s.sizeFor env r) r

/-- Where the allocation searches the slots there is memory for the request, if `Page_Create` maps
all that it is asked for; and so it is in the first attempt at a chunk that no `int` holds. -/
def State.Grants : Prop := ∃ u, s.searchedBy env intSize r = some u ∧
  (∃ a t, allocateFromSlots env (s.sizeFor env r) (s.alignFor r) r u = .ok a t ∧ a ≠ 0) ∧
  (s.Widens env r → ∃ v, evictFor env (s.sizeFor env r) u = .ok ⟨⟩ v ∧
    ¬ v.Refused env id (s.sizeFor env r) r)

variable {env} {s} {r}

def State.affords (env : Env) (s : State) (r : Request) : Bool :=
  (s.searchedBy env intSize r).any fun u =>
    yields (allocateFromSlots env (s.sizeFor env r) (s.alignFor r) r) u (fun a _ => a != 0) &&
      decide (createdSize env (s.sizeFor env r) r < 2 ^ 31)

theorem State.grants_of_affords (h : s.affords env r = true) :
    s.Grants env r ∧ ¬ s.Widens env r := by
  unfold State.affords at h
  obtain ⟨u, hu, h⟩ := (Option.any_eq_true ..).mp h
  obtain ⟨hy, hc⟩ := Bool.and_eq_true _ _ ▸ h
  have hw : ¬ s.Widens env r := fun ⟨_, _, _, hle⟩ => absurd (of_decide_eq_true hc) (not_lt.mpr hle)
  obtain ⟨a, t, he, ha⟩ := exists_yields hy
  exact ⟨⟨u, hu, ⟨a, t, he, bne_iff_ne.mp ha⟩, fun h => absurd h hw⟩, hw⟩

theorem pageCreateBy_congr {b : Bool} (h : len n = n) :
    pageCreateBy env len n b = pageCreate env n b := by
  unfold pageCreate pageCreateBy
  rw [h]
  rfl

theorem retryCreateBy_congr {k fuel : ℕ} (h : len n = n) :
    retryCreateBy env len k n fuel = retryCreate env k n fuel := by
  induction fuel with
  | zero => rfl
  | succ fuel ih =>
    unfold retryCreate at ih ⊢
    unfold retryCreateBy
    rw [ih, pageCreateBy_congr h]

theorem createChunkBy_congr (h : len (createdSize env n r) = createdSize env n r) :
    createChunkBy env len (chunkSizeFor env n) r = createChunk env (chunkSizeFor env n) r := by
  have hp : ∀ b, pageCreateBy env len (createdSize env n r) b =
      pageCreateBy env id (createdSize env n r) b := fun _ => pageCreateBy_congr h
  have hr : ∀ k fuel, retryCreateBy env len k (createdSize env n r) fuel =
      retryCreateBy env id k (createdSize env n r) fuel := fun _ _ => retryCreateBy_congr h
  unfold createChunk
  rw [createChunk_eq, createChunk_eq]
  unfold firstAttempt laterAttempts
  simp only [hp, hr]

/-- A search that takes no chunk, or one that is mapped in full, ends as it should. -/
theorem allocateFromSlotsBy_congr
    (h : (searchSlots n s.slots 0 Found.none).fullSlot = none →
      len (createdSize env n r) = createdSize env n r) :
    allocateFromSlotsBy env len n al r s = allocateFromSlots env n al r s := by
  unfold allocateFromSlots allocateFromSlotsBy
  change EStateM.bind (readSlots env) _ s = EStateM.bind (readSlots env) _ s
  unfold EStateM.bind
  cases hrd : readSlots env s with
  | error e t => rfl
  | ok v t =>
    have hread : Post (readSlots env) (fun v t => v = s.slots ∧ t = s) s :=
      Wp.bind_iff.mpr (Wp.get_iff.mpr (Wp.bind_iff.mpr
        (touch_wp (fun _ => ⟨rfl, rfl⟩) fun _ => trivial)))
    obtain ⟨rfl, rfl⟩ := hread.returns hrd
    dsimp only
    cases hf : (searchSlots n t.slots 0 Found.none).fullSlot with
    | some _ => rfl
    | none =>
      dsimp only
      unfold createMoreBy
      simp only [createChunkBy_congr (h hf)]

section Search

variable (hs : Safe env s) (hr : r.Proper env s) (h0 : r.userSize ≠ 0)
include hs hr h0

/-- A request for which there is memory is served if its chunk is not too long. -/
theorem State.Grants.serves (hg : s.Grants env r) (hplain : r.protectAllocList = false)
    (hfill : r.fillByte = -1) (hw : ¬ s.Widens env r) :
    ∃ q t, allocateInt env r s = .ok q t ∧ q ≠ 0 := by
  obtain ⟨u, hu, ⟨a, t, ha, ha0⟩, -⟩ := hg
  have hslots : allocateFromSlotsBy env intSize (s.sizeFor env r) (s.alignFor r) r u = .ok a t :=
    (allocateFromSlotsBy_congr fun hf =>
      intSize_of_lt (not_le.mp fun hc => hw ⟨u, hu, hf, hc⟩)).trans ha
  have hserve : Wp (allocateInt env r) (fun q t => q ≠ 0) (fun _ _ => False) s := by
    refine Wp.of_eq (allocateWith_serves hs.core.allocList_pos.ne' h0
      (alignmentPasses_of_pow (hr h0).pow)) ?_
    refine Wp.seq (R := fun _ v => v = u) (Wp.of_ok (State.searchedWith_ok hu) rfl) ?_
    rintro _ _ rfl
    refine Wp.seq (R := fun q _ => q = a) (Wp.of_ok hslots rfl) ?_
    rintro _ v rfl
    unfold allocateEpilog
    rw [hplain, hfill]
    refine Wp.ite (fun h => by cases h) fun _ => ?_
    exact Wp.ite (fun h => absurd rfl h.2.1) fun _ => ha0
  exact hserve.eq_ok

/-- No block comes out of a chunk that is too long. -/
theorem State.Grants.fails (hg : s.Grants env r) (ho : Open env s)
    (hlist : s.BacksList env intSize) (hw : s.Widens env r) :
    Post (allocateInt env r) (fun q _ => q = 0) s := by
  obtain ⟨u, hu, -, hfirst⟩ := hg
  obtain ⟨v, hev, hnr⟩ := hfirst hw
  obtain ⟨u', hu', hf, hc⟩ := hw
  obtain rfl : u' = u := Option.some.inj (hu'.symm.trans hu)
  refine Wp.of_eq (allocateWith_serves hs.core.allocList_pos.ne' h0
    (alignmentPasses_of_pow (hr h0).pow)) ?_
  refine Wp.seq (R := fun _ t => t = u') (Wp.of_ok (State.searchedWith_ok hu) rfl) ?_
  rintro _ t rfl
  refine Wp.seq (allocateFromSlots_wide (hs.searched hlist hu)
    (searched_open hs (fun _ => ho) hlist hu) hr.serves h0 hf hc hev hnr) ?_
  rintro _ _ rfl
  exact Wp.mono allocateEpilog_ends (fun _ _ => id) fun _ _ _ => trivial

end Search

theorem State.backsAlloc (hlist : s.BacksList env intSize) (hw : ¬ s.Widens env r) :
    s.BacksAlloc env intSize r :=
  ⟨hlist, fun t ht hf => Or.inl (intSize_of_lt (not_le.mp fun hc => hw ⟨t, ht, hf, hc⟩))⟩

end Grants

section Returns

theorem Served'.open (h : Safe env s) (hS : s.Serves env (Served env) r)
    (hlist : r.protectAllocList = false) (hO : Open env s) (hH : s.Held env)
    (hs : Served' env r s p t) : Open env t ∧ t.Held env := by
  have hfill : ∀ v : State, Open env v → v.Held env → Open env (v.filled r p) ∧
      (v.filled r p).Held env := by
    intro v hv hh
    unfold State.filled
    split
    exacts [⟨hv, hh⟩, ⟨hv, hh⟩]
  cases hs with
  | null hb _ _ ht =>
    have hk := Inners.kept (fun _ => False.elim) h.core
      (hb.bases.inners : Inners env (fun _ => False) s _)
    exact ht ▸ ⟨hk.open hO, hk.same.held hH⟩
  | @served b u hb hh ht =>
    rw [hlist] at hh ht
    have hk := Inners.kept (fun _ => False.elim) h.core
      (hb.bases.inners : Inners env (fun _ => False) s _)
    have hsame := (hh.same within_inners).held (hk.same.held hH)
    rw [ht]
    cases hh with
    | none hi =>
      have hkept := Inners.kept (fun _ => False.elim) hk.core hi
      exact hfill u (hkept.open (hk.open hO)) hsame
    | @some i l v hi hT _ =>
      have hv := Inners.kept hS.whole hk.core hi
      obtain ⟨sl, new, hTk⟩ := hT.taken hv.core hS
      exact hfill u (hTk.open hv.core (hv.open (hk.open hO))) hsame

theorem Clean.not_overwritten (h : Clean env s) (hc : Core env s) : ¬ Overwritten env s sl := by
  intro ho
  have hu := ho.isUser hc
  obtain ⟨⟨i, hi⟩, -, hI⟩ := ho
  exact hI (h hi hu)

theorem Core.findSlot_eq (h : Core env s) (hi : s.slots[i]? = some sl) (h0 : sl.userAddress ≠ 0) :
    findSlot (·.userAddress == sl.userAddress) s.slots = some (i, sl) := by
  cases hf : findSlot (·.userAddress == sl.userAddress) s.slots with
  | none =>
    have := findSlot_none hf sl (List.mem_of_getElem? hi)
    simp at this
  | some v =>
    obtain ⟨k, sl'⟩ := v
    obtain ⟨hk, hu⟩ := findSlot_some hf
    have hu : sl'.userAddress = sl.userAddress := by simpa using hu
    obtain rfl := h.eq_of_user hi hk hu.symm h0
    obtain rfl := Option.some.inj (hi.symm.trans hk)
    rfl

theorem Safe.writable (h : Safe env s) (hi : s.slots[i]? = some sl) (hu : sl.IsUser) {a b : ℕ}
    (h1 : sl.userAddress ≤ a) (h2 : b ≤ sl.userAddress + sl.userSize) :
    (∀ x, a ≤ x → x < b → s.page env x = .readWrite) ∧
      (a < b → b ≤ s.allocList ∨ s.allocList + s.allocListSize ≤ a) := by
  have hwf := h.core.slot hi
  have hr := hwf.region (by rw [hu.1]; nofun)
  have hlive : ∀ x, a ≤ x → x < b → sl.Live x := fun x h3 h4 =>
    (hwf.placed hu.1).live_of_inBlock hr ⟨by omega, by omega⟩
  refine ⟨fun x h3 h4 => h.live hi hu (hlive x h3 h4), fun hlt => ?_⟩
  exact h.core.list_apart hi hu.not_isList hlt fun x h3 h4 =>
    (hwf.placed hu.1).owns_of_live hr (hlive x h3 h4)

theorem memcpy_returns (h : Safe env s) (hi : s.slots[i]? = some sl) (hu : sl.IsUser)
    (hj : s.slots[j]? = some new) (hu' : new.IsUser) (hij : i ≠ j) (h1 : n ≤ sl.userSize)
    (h2 : n ≤ new.userSize) (hlt : n < 2 ^ 32) :
    Wp (memcpy env new.userAddress sl.userAddress n)
      (fun _ t => t = s.store new.userAddress (new.userAddress + n)
        fun x => s.mem (sl.userAddress + (x - new.userAddress))) (fun _ _ => False) s := by
  obtain ⟨hsrc, -⟩ := h.writable hi hu le_rfl (Nat.add_le_add_left h1 _)
  have hdest := h.writable hj hu' le_rfl (Nat.add_le_add_left h2 _)
  have own : ∀ {k : ℕ} {sl : Slot}, s.slots[k]? = some sl → sl.IsUser → n ≤ sl.userSize →
      ∀ x, sl.userAddress ≤ x → x < sl.userAddress + n → sl.Owns x := by
    intro k sl hk hu hn x h1 h2
    have hwf := h.core.slot hk
    have hr := hwf.region (by rw [hu.1]; nofun)
    exact (hwf.placed hu.1).owns_of_live hr ((hwf.placed hu.1).live_of_inBlock hr ⟨h1, by omega⟩)
  have hapart : new.userAddress + n ≤ sl.userAddress ∨ sl.userAddress + n ≤ new.userAddress ∨
      n = 0 := by
    by_cases h0 : n = 0
    · exact Or.inr (Or.inr h0)
    · have := h.core.apart hi hj hij (own hi hu h1) (own hj hu' h2) (Nat.pos_of_ne_zero h0)
        (Nat.pos_of_ne_zero h0)
      omega
  refine Wp.mono (F := fun _ _ => False) (Wp.seq (memcpyAccess_wp (B := True) (A := fun _ => False)
    (fun _ => ⟨hapart, hsrc, hdest.1⟩) fun h => absurd h (not_le.mpr hlt)) ?_) (fun _ _ => id)
    fun _ _ h => h trivial
  rintro _ _ ⟨rfl, -⟩
  exact Wp.bind_iff.mpr (Wp.get_iff.mpr (storeRange_under fun _ => hdest))

theorem copy_returns {k : M ℕ} {Q : ℕ → State → Prop} (h : Safe env s) (hi : s.slots[i]? = some sl)
    (hu : sl.IsUser) (hj : s.slots[j]? = some new) (hu' : new.IsUser) (hij : i ≠ j)
    (hm : new.userSize = m) (hlt : min sl.userSize m < 2 ^ 32)
    (hk : Wp k Q (fun _ _ => False)
      (s.copied new.userAddress sl.userAddress sl.userSize m)) :
    Wp (if sl.userSize < m then do
        memcpy env new.userAddress sl.userAddress sl.userSize
        storeRange env (new.userAddress + sl.userSize) (new.userAddress + m) fun _ => 0
        k
      else do
        memcpy env new.userAddress sl.userAddress m
        k) Q (fun _ _ => False) s := by
  refine Wp.ite (fun hn => ?_) fun hn => ?_
  · rw [State.copied, if_pos hn] at hk
    apply Wp.seq (memcpy_returns h hi hu hj hu' hij le_rfl (by omega) (by omega))
    rintro _ _ rfl
    refine Wp.seq (R := fun _ t => t = _) (Wp.mono (storeRange_under (B := True)
      (A := fun _ => False) fun _ => ?_) (fun _ _ => id) fun _ _ h => h trivial) ?_
    · exact h.writable hj hu' (Nat.le_add_right _ _) (by rw [hm])
    · rintro _ _ rfl
      exact hk
  · rw [State.copied, if_neg hn] at hk
    apply Wp.seq (memcpy_returns h hi hu hj hu' hij (by omega) hm.ge (by omega))
    rintro _ _ rfl
    exact hk

theorem deallocate_returns {allocator : Allocator} (h : Safe env s) (hc : Clean env s)
    (hO : Open env s) (hH : s.Held env) (hi : s.slots[i]? = some sl) (hu : sl.IsUser)
    (hty : sl.allocator.type = allocator.type) :
    Wp (deallocate env sl.userAddress false allocator site) (fun _ t => Core env t ∧ t.Held env)
      (fun _ _ => False) s := by
  have hrel : ∀ (k : ℕ) (sl' : Slot), s.slots[k]? = some sl' → sl'.userAddress = sl.userAddress →
      ¬ sl'.IsProtected → sl'.allocator.type = allocator.type → Releasable env s sl' := by
    intro k sl' hk hua _ _
    obtain rfl := h.core.eq_of_user hi hk hua.symm (h.core.userAddress_ne hi hu).1
    obtain rfl := Option.some.inj (hi.symm.trans hk)
    have hwf := h.core.slot hi
    exact ⟨hu.1, hu.not_isList, fun x hx => h.live hi hu
      ((hwf.placed hu.1).live_of_inBlock (hwf.region (by rw [hu.1]; nofun)) hx)⟩
  have hnp : ¬ sl.IsProtected := by
    rintro (hp | hp) <;> rw [hu.1] at hp <;> cases hp
  have hstops : FreeStops env sl.userAddress allocator site (fun _ => False) s :=
    ⟨fun _ _ ho _ => hc.not_overwritten h.core ho, fun hno _ _ => hno ⟨i, sl, hi, rfl, hnp, hty⟩⟩
  refine Wp.mono (deallocate_wp (fun _ => False) (B := True) (b := false)
    (fun _ => ⟨⟨⟨fun _ => False.elim, h.core, h.live⟩, fun _ => hO⟩, hrel⟩) hstops
    fun h0 => h.tidy.pos h0) (fun _ t hd => ?_) fun _ _ h => h trivial
  constructor
  · rcases hd.outcome h (by rw [← hty]; exact hu.2) with ⟨rfl, -⟩ | ⟨ht, -⟩
    exacts [h.core, ht.core]
  · cases hd with
    | null _ ht => exact ht ▸ hH
    | freed _ hf ht => exact ht ▸ hf.same.held hH

theorem reallocCopy_returns (h : Safe env s) (hc : Clean env s) (hO : Open env s) (hH : s.Held env)
    (hS : s.Serves env (Served env) (s.tls.reallocRequest m site)) (hm : 0 < m)
    (hi : s.slots[i]? = some sl) (hu : sl.IsUser) (hty : sl.allocator.type = .malloc)
    (hlt : min sl.userSize m < 2 ^ 32)
    (hback : s.BacksAlloc env len (s.tls.reallocRequest m site))
    (hg : ∃ q u, allocateBy env len (s.tls.reallocRequest m site) s = .ok q u ∧ q ≠ 0) :
    Wp (reallocCopyBy env len sl.userAddress m site) (fun q t => q ≠ 0 ∧ Core env t ∧ t.Held env)
      (fun _ _ => False) s := by
  obtain ⟨q, u, hg, hq⟩ := hg
  have huser : (s.tls.reallocRequest m site).allocator.type ≠ .internal :=
    show AllocType.malloc ≠ .internal by decide
  have hs := (allocateBy_post hback huser h.tidy).returns hg
  obtain ⟨j, new, hP⟩ := hs.provided h hS huser hq (Or.inl hm.ne')
  obtain ⟨hOu, hHu⟩ := hs.open h hS rfl hO hH
  have hcu := (hs.clean h hc hS huser).2
  have hiu := (hP.others hi hu).1
  have hij : i ≠ j := by
    rintro rfl
    exact hP.fresh sl hi hu
  have hpre : Pre env (fun _ => False) u := ⟨fun _ => False.elim, hP.safe.core, hOu, hP.safe.live⟩
  refine Wp.bind_iff.mpr (Wp.get_iff.mpr (Wp.seq (R := fun a t => a = q ∧ t = u)
    (Wp.of_ok hg ⟨rfl, rfl⟩) ?_))
  rintro _ _ ⟨rfl, rfl⟩
  refine Wp.ite (fun h0 => absurd h0 hq) fun _ => ?_
  refine Wp.seq (Wp.mono (@slotForUserAddress_ensures env (fun _ => False) _ sl.userAddress
    fun _ => False) (fun _ _ => id) fun _ _ h => h hpre) ?_
  rintro _ t ⟨rfl, rfl⟩
  rw [hP.safe.core.findSlot_eq hiu (h.core.userAddress_ne hi hu).1]
  have hi' : (t.copied new.userAddress sl.userAddress sl.userSize m).slots[i]? = some sl := by
    rw [State.copied_slots]
    exact hiu
  have hO' : Open env (t.copied new.userAddress sl.userAddress sl.userSize m) := by
    unfold State.copied
    split
    exacts [hOu, hOu]
  have hH' : (t.copied new.userAddress sl.userAddress sl.userSize m).Held env := by
    unfold State.copied
    split
    exacts [hHu, hHu]
  have := copy_returns (k := do
      deallocate env sl.userAddress false .realloc site
      pure new.userAddress) (Q := fun q t => q ≠ 0 ∧ Core env t ∧ t.Held env)
    hP.safe hiu hu hP.slot hP.user hij hP.userSize hlt
    (Wp.seq (deallocate_returns hP.safe.copied
      (hcu.copied hP.safe hP.slot hP.user rfl hP.userSize) hO' hH' hi' hu hty)
      fun _ t ht => ⟨by rw [hP.addr]; exact hq, ht⟩)
  rw [hP.addr] at this
  exact this

/-- A `realloc` of a block with a slot of its own returns, if there is memory for it and the copy is
short enough. -/
theorem realloc_returns (h : Safe env s) (hc : Clean env s)
    (hr : (s.tls.reallocRequest m site).Proper env s) (hm : 0 < m)
    (hi : s.slots[i]? = some sl) (hu : sl.IsUser) (hty : sl.allocator.type = .malloc)
    (hlt : min sl.userSize m < 2 ^ 32)
    (hback : (s.opened env).BacksAlloc env len (s.tls.reallocRequest m site))
    (hg : ∃ q u, allocateBy env len (s.tls.reallocRequest m site) (s.opened env) = .ok q u ∧
      q ≠ 0) :
    Wp (reallocBy env settings len sl.userAddress m site) (fun q _ => q ≠ 0)
      (fun _ _ => False) s := by
  have hopen : Silents env (fun _ => False) s (s.opened env) := silents_opened
  have hso := h.silents (fun _ => False.elim) hopen
  have hpre : Pre env (fun _ => False) (s.opened env) :=
    Resting.opened ⟨fun _ => False.elim, h.core, h.live⟩
  have hS : (s.opened env).Serves env (Served env)
      ((s.opened env).tls.reallocRequest m site) := hr.serves
  refine Wp.bind_iff.mpr (Wp.bind_iff.mpr (Wp.get_iff.mpr
    (Wp.ite (fun h0 => absurd h0 h.tidy.pos) fun _ => ?_)))
  refine Wp.seq (R := fun _ t => t = s.opened env) (Wp.mono (openAllocList_wp (B := True)
    (A := fun _ => False) fun _ => h.core) (fun _ _ => id) fun _ _ h => h trivial) ?_
  rintro _ _ rfl
  refine Wp.ite (fun h0 => absurd h0 (h.core.userAddress_ne hi hu).1) fun _ => Wp.ite (fun h0 => ?_)
    fun _ => ?_
  · omega
  · refine Wp.seq (reallocCopy_returns hso (Silents.clean h hc hopen) hpre.ready.open
      (State.opened_held s) hS hm hi hu hty hlt hback hg) fun q t ht => ?_
    refine Wp.seq (R := fun _ _ => True) (Wp.mono (closeAllocList_wp (B := True)
      (A := fun _ => False) fun _ => ht.2) (fun _ _ _ => trivial) fun _ _ h => h trivial) ?_
    exact fun _ _ _ => ht.1

end Returns

section Accepts

theorem Served'.nullAddr (hs : Served' env r s p t) : t.nullAddr env = s.nullAddr env := by
  cases hs with
  | null _ _ _ ht => exact ht ▸ rfl
  | @served b u _ h ht =>
    have hin : (State.entered env r.protectAllocList { s with book := b }).nullAddr env =
        s.nullAddr env := by cases r.protectAllocList <;> rfl
    rw [ht, State.filled_nullAddr, State.left_nullAddr, ← hin]
    unfold State.nullAddr
    rw [(h.same within_inners).nullBlock]

/-- What a `realloc` has relied on when it returns a new block: the address has a slot, and the copy
ends. -/
def Movable (s : State) (env : Env) (p m : ℕ) : Prop :=
  p ≠ s.nullAddr env ∧ ∀ (i : ℕ) (sl : Slot), s.slots[i]? = some sl → sl.IsUser →
    sl.userAddress = p → min sl.userSize m < 2 ^ 32

theorem reallocCopy_movable (h : Safe env s)
    (hS : s.Serves env (Served env) (s.tls.reallocRequest m site)) (hm : 0 < m) (hp : p ≠ 0)
    (hback : s.BacksAlloc env len (s.tls.reallocRequest m site)) :
    Post (reallocCopyBy env len p m site) (fun q _ => q = 0 ∨ Movable s env p m) s := by
  have huser : (s.tls.reallocRequest m site).allocator.type ≠ .internal :=
    show AllocType.malloc ≠ .internal by decide
  apply Wp.bind_iff.mpr
  refine Wp.get_iff.mpr (Wp.seq (allocateBy_post hback huser h.tidy) fun q u hs => ?_)
  refine Wp.ite (fun hq => Or.inl rfl) fun hq => ?_
  obtain ⟨j, new, hP⟩ := hs.provided h hS huser hq (Or.inl hm.ne')
  apply Wp.seq slotForUserAddress_post
  rintro _ t ⟨rfl, rfl⟩
  cases hf : findSlot (·.userAddress == p) t.slots with
  | none => exact trivial
  | some v =>
    obtain ⟨k, sl⟩ := v
    obtain ⟨hk, hu⟩ := findSlot_some hf
    have hu : sl.userAddress = p := by simpa using hu
    have found : min sl.userSize m < 2 ^ 32 → Movable s env p m := by
      refine fun hlt => ⟨fun hnull => ?_, fun i sl' hi hu' hua => ?_⟩
      · have hown := (hP.safe.core.slot hk).owns_user (hu ▸ hp)
        apply hP.safe.core.not_null_of_owns (hP.safe.core.owns hk hown)
        have hP := env.pageSize_pos
        rw [hu, hnull, ← hs.nullAddr]
        unfold State.InNull State.nullAddr
        omega
      · have hi' := (hP.others hi hu').1
        obtain rfl := hP.safe.core.eq_of_user hk hi' (hu.trans hua.symm) (hu ▸ hp)
        obtain rfl := Option.some.inj (hk.symm.trans hi')
        exact hlt
    have rest : ∀ {k : M ℕ} {t : State}, min sl.userSize m < 2 ^ 32 →
        Post k (fun q _ => q = 0 ∨ Movable s env p m) t := fun hlt =>
      Wp.intro (fun _ _ _ => Or.inr (found hlt)) fun _ _ _ => trivial
    refine Wp.ite (fun hn => Wp.seq memcpy_post fun _ _ hc => rest ?_)
      fun hn => Wp.seq memcpy_post fun _ _ hc => rest ?_
    · exact lt_of_le_of_lt (Nat.min_le_left _ _) hc.2
    · exact lt_of_le_of_lt (Nat.min_le_right _ _) hc.2

theorem realloc_movable (h : Safe env s) (hr : (s.tls.reallocRequest m site).Proper env s)
    (hm : 0 < m) (hp : p ≠ 0)
    (hback : (s.opened env).BacksAlloc env len (s.tls.reallocRequest m site)) :
    Post (reallocBy env settings len p m site) (fun q _ => q = 0 ∨ Movable s env p m) s := by
  have hso : Safe env (s.opened env) :=
    h.silents (fun _ => False.elim) (silents_opened : Silents env (fun _ => False) s _)
  have hS : (s.opened env).Serves env (Served env)
      ((s.opened env).tls.reallocRequest m site) := hr.serves
  refine demand_post h.tidy (Wp.seq openAllocList_post ?_)
  rintro _ _ rfl
  refine Wp.ite (fun h0 => absurd h0 hp) fun _ => Wp.ite (fun h0 => by omega) fun _ => ?_
  refine Wp.seq (reallocCopy_movable hso hS hm hp hback) fun q t ht => ?_
  exact Wp.seq closeAllocList_post fun _ _ _ => ht

theorem realloc_fails (h : Safe env s) (hm : 0 < m) (hp : p ≠ 0)
    (hf : Post (allocateBy env len (s.tls.reallocRequest m site)) (fun q _ => q = 0)
      (s.opened env)) : Post (reallocBy env settings len p m site) (fun q _ => q = 0) s := by
  refine demand_post h.tidy (Wp.seq openAllocList_post ?_)
  rintro _ _ rfl
  refine Wp.ite (fun h0 => absurd h0 hp) fun _ => Wp.ite (fun h0 => by omega) fun _ => ?_
  refine Wp.seq (R := fun q _ => q = 0) (Wp.bind_iff.mpr (Wp.get_iff.mpr (Wp.seq hf ?_))) ?_
  · exact fun q _ hq => Wp.ite (fun _ => rfl) fun h0 => absurd hq h0
  · exact fun q _ hq => Wp.seq closeAllocList_post fun _ _ _ => hq

/-- The program holds a pointer to `n` bytes from a function of the C library: that of one of its
blocks, or the one that stands for all blocks of 0 bytes. -/
inductive World.Holds (env : Env) (w : World) : ℕ → ℕ → Prop
  | block {b : Block} (hb : b ∈ w.heap) (ht : b.allocator.type = .malloc) :
      Holds env w b.addr b.size
  | shared : Holds env w (w.st.nullAddr env) 0

/-- A `realloc` for which there is memory returns a new block for a pointer that the program holds
just if that is not the shared one, fewer than 2^32 bytes are to be copied, and an `int` holds the
length of the chunk that it may take. -/
theorem realloc_accepts_iff (hset : settings.Proper env)
    (hw : Reach env settings (fun w c => c.Tame env w) w) (hl : w.st.allocListSize < 2 ^ 31)
    (hp : w.Holds env p n) (hr : (w.st.tls.reallocRequest m site).Proper env w.st) (hm : 0 < m)
    (hg : (w.st.opened env).Grants env (w.st.tls.reallocRequest m site)) :
    (∃ q t, reallocInt env settings p m site w.st = .ok q t ∧ q ≠ 0 ∧ ∃ (j : ℕ) (new : Slot),
      t.slots[j]? = some new ∧ new.IsUser ∧ new.userAddress = q ∧ new.userSize = m) ↔
      p ≠ w.st.nullAddr env ∧ min n m < 2 ^ 32 ∧
        ¬ (w.st.opened env).Widens env (w.st.tls.reallocRequest m site) := by
  have hrun : Run env settings w := hw.mono _ _ fun _ _ h => h.proper
  have hmatch := Run.matched hset hrun
  have hs := hmatch.safe
  have hso : Safe env (w.st.opened env) :=
    hs.silents (fun _ => False.elim) (silents_opened : Silents env (fun _ => False) w.st _)
  have hopen : Open env (w.st.opened env) :=
    (Resting.opened ⟨fun _ => False.elim, hs.core, hs.live⟩ :
      Pre env (fun _ => False) (w.st.opened env)).ready.open
  have hlist : (w.st.opened env).BacksList env intSize :=
    (State.backsList_congr rfl).mpr (hs.backsList hl)
  have hro : (w.st.tls.reallocRequest m site).Proper env (w.st.opened env) := hr
  constructor
  · rintro ⟨q, t, he, hq, -⟩
    have hp0 : p ≠ 0 := by
      cases hp with
      | block hb => exact (hmatch.addr_ne hb).1
      | shared => exact (Nat.add_pos_right _ env.pageSize_pos).ne'
    have hwide : ¬ (w.st.opened env).Widens env (w.st.tls.reallocRequest m site) := fun hwide =>
      hq ((realloc_fails hs hm hp0 (hg.fails hso hro hm.ne' hopen hlist hwide)).returns he)
    obtain ⟨hnull, hlt⟩ := ((realloc_movable hs hr hm hp0
      (State.backsAlloc hlist hwide)).returns he).resolve_left hq
    refine ⟨hnull, ?_, hwide⟩
    cases hp with
    | block hb =>
      obtain ⟨sl, hi, hc, -⟩ := hmatch.slot hb
      rw [← hc.size]
      exact hlt _ sl hi hc.user hc.addr
    | shared => exact absurd rfl hnull
  · rintro ⟨hnull, hlt, hwide⟩
    have hback := State.backsAlloc hlist hwide
    cases hp with
    | shared => exact absurd rfl hnull
    | block hb ht =>
      obtain ⟨sl, hi, hc, -⟩ := hmatch.slot hb
      rw [← hc.size] at hlt
      rw [← hc.addr]
      obtain ⟨q, t, he, hq⟩ := (realloc_returns hs (hw.clean hset) hr hm hi hc.user
        (hc.allocator ▸ ht) hlt hback (hg.serves hso hro hm.ne' rfl rfl hwide) :
          Wp (reallocBy env settings intSize _ m site) _ _ _).eq_ok
      have h0 := (hs.core.userAddress_ne hi hc.user).1
      obtain ⟨u, hR, rfl⟩ := (reallocBy_post (fun h => absurd h h0) (fun _ => hback)
        hs.tidy).returns he
      obtain ⟨j, new, hb⟩ := (hR.block hs hr hm hi hc.user).2.1 hq
      exact ⟨q, _, he, hq, j, new, hb.slot, hb.user, hb.addr, hb.size⟩

/-- Runs whose writes are each in one block are runs of a program that writes to its blocks
alone. -/
theorem Reach.tame {calls : List Call} {P : World → Bool}
    (h : (runAll env settings (fun w c => decide (c.Proper env w.st) &&
      match c with
      | .write lo hi _ => w.heap.any fun b => decide (b.addr ≤ lo ∧ hi ≤ b.addr + b.size)
      | _ => true) calls).any P = true) :
    ∃ w, Reach env settings (fun w c => c.Tame env w) w ∧ P w = true := by
  refine exists_reach (fun w c h => ?_) h
  obtain ⟨hp, hc⟩ := Bool.and_eq_true _ _ ▸ h
  refine ⟨of_decide_eq_true hp, fun lo hi f he x h1 h2 => ?_⟩
  subst he
  obtain ⟨b, hb, hin⟩ := List.any_eq_true.mp hc
  obtain ⟨h3, h4⟩ := of_decide_eq_true hin
  exact ⟨b, hb, by omega, by omega⟩

theorem realloc_accepts_hundred : ∃ w p, Reach Env.sample (Settings.sample 0 (-1))
    (fun w c => c.Tame Env.sample w) w ∧ w.Holds Env.sample p 100 ∧
      ∃ q t, reallocInt Env.sample (Settings.sample 0 (-1)) p 200 Site.unknown w.st = .ok q t ∧
        q ≠ 0 ∧ ∃ (j : ℕ) (new : Slot), t.slots[j]? = some new ∧ new.IsUser ∧
          new.userAddress = q ∧ new.userSize = 200 := by
  obtain ⟨w, hw, hP⟩ := @Reach.tame Env.sample (Settings.sample 0 (-1)) [.malloc 100 Site.unknown]
    (fun w => w.heap.any fun b => decide (b.addr ≠ w.st.nullAddr Env.sample ∧ b.size = 100 ∧
      b.allocator.type = .malloc ∧ w.st.allocListSize < 2 ^ 31 ∧
      (w.st.tls.reallocRequest 200 Site.unknown).Proper Env.sample w.st ∧
      (w.st.opened Env.sample).affords Env.sample (w.st.tls.reallocRequest 200 Site.unknown)))
    (by decide +kernel)
  obtain ⟨b, hb, h⟩ := List.any_eq_true.mp hP
  obtain ⟨hnull, hsize, ht, hl, hr, hg⟩ := of_decide_eq_true h
  obtain ⟨hg, hwide⟩ := State.grants_of_affords hg
  have hp : w.Holds Env.sample b.addr 100 := hsize ▸ .block hb ht
  have hacc := realloc_accepts_iff (Settings.sample_proper _ _) hw hl hp hr (by decide) hg
  exact ⟨w, b.addr, hw, hp, hacc.mpr ⟨hnull, by decide, hwide⟩⟩

def Settings.shared : Settings :=
  { Settings.sample 0 (-1) with
    cfg := { (Settings.sample 0 (-1)).cfg with malloc0Strategy := 2 } }

/-- The pointer to 0 bytes that all such requests share is not accepted. -/
theorem realloc_accepts_fails : ¬ ∀ (env : Env) (settings : Settings) (w : World) (size p m : ℕ)
    (site : Site) (t : State), settings.Proper env → Run env settings w →
      malloc env settings size site w.st = .ok p t → p ≠ 0 → 0 < m →
        (t.tls.reallocRequest m site).Proper env t →
          (t.opened env).Grants env (t.tls.reallocRequest m site) →
            ∃ q u, reallocInt env settings p m site t = .ok q u ∧ q ≠ 0 := by
  intro h
  obtain ⟨w, p, t, hw, he, hP⟩ := exists_outcome Settings.shared [] (.malloc 0 Site.unknown)
    (fun _ p t => decide (p ≠ 0 ∧ (t.tls.reallocRequest 10 Site.unknown).Proper Env.sample t ∧
      (t.opened Env.sample).affords Env.sample (t.tls.reallocRequest 10 Site.unknown)) &&
      !yields (reallocInt Env.sample Settings.shared p 10 Site.unknown) t fun _ _ => true)
    (by decide +kernel)
  obtain ⟨hP, hno⟩ := Bool.and_eq_true _ _ ▸ hP
  obtain ⟨hp, hr, hg⟩ := of_decide_eq_true hP
  have hset : Settings.shared.Proper Env.sample := fun _ =>
    ⟨(Settings.sample_proper 0 (-1) rfl).test, (Settings.sample_proper 0 (-1) rfl).copies⟩
  obtain ⟨q, u, hq, -⟩ := h _ _ w 0 p 10 _ t hset hw he hp (by decide) hr
    (State.grants_of_affords hg).1
  unfold yields at hno
  rw [hq] at hno
  cases hno

end Accepts

end Duma

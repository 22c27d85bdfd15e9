import Duma.Runs.Blocks

/-! # Moving blocks

What `realloc` does to the block that it is given and to all the others, whether it gets the memory
for the new block or not.
-/

namespace Duma

variable {env : Env} {settings : Settings} {s t u : State} {w : World} {r : Request} {site : Site}
  {allocator : Allocator} {i j p q m : ℕ} {sl new : Slot} {v : Bool}

section Move

/-- The block of slot `k` is in `t` as it was in `s`, and as accessible. -/
structure Untouched (env : Env) (s t : State) (k : ℕ) (sl : Slot) : Prop where
  slot : t.slots[k]? = some sl
  mem : ∀ x, sl.Owns x → t.mem x = s.mem x
  page : ∀ x, sl.Owns x → t.page env x = s.page env x ∨ t.page env x = .readWrite
  live : ∀ x, sl.Live x → t.page env x = .readWrite

/-- The block of slot `i` has been moved to slot `j`, where it is `m` bytes long. -/
structure MovedBlock (env : Env) (i : ℕ) (sl : Slot) (m q : ℕ) (s t : State) (j : ℕ) (new : Slot) :
    Prop where
  slot : t.slots[j]? = some new
  user : new.IsUser
  allocator : new.allocator = .realloc
  addr : new.userAddress = q
  size : new.userSize = m
  live : ∀ x, new.InBlock x → t.page env x = .readWrite
  fresh : ∀ k sl', s.slots[k]? = some sl' → sl'.IsUser → k ≠ j ∧ ∀ x, new.Owns x → ¬ sl'.Owns x
  head : ∀ x < min sl.userSize m, t.mem (q + x) = s.mem (sl.userAddress + x)
  tail : ∀ x, sl.userSize ≤ x → x < m → t.mem (q + x) = 0
  gone : ∀ (k : ℕ) sl', t.slots[k]? = some sl' → sl'.IsUser → sl'.userAddress ≠ sl.userAddress
  others : ∀ k sl', k ≠ i → s.slots[k]? = some sl' → sl'.IsUser → Untouched env s t k sl'
  back : ∀ (k : ℕ) sl', k ≠ j → t.slots[k]? = some sl' → sl'.IsUser →
    k ≠ i ∧ s.slots[k]? = some sl'

theorem Provided.moved (h : Provided env r s q t j new) (hr : r.allocator = .realloc) (hs : Safe env s)
    (hi : s.slots[i]? = some sl) (hu : sl.IsUser)
    (hf : KeepsOthers env i (t.copied q sl.userAddress sl.userSize r.userSize) u)
    (hsafe : Safe env u) : MovedBlock env i sl r.userSize q s u j new := by
  have hwf := hs.core.slot hi
  have hreg := hwf.region (by rw [hu.1]; nofun)
  have hblock : ∀ x, new.InBlock x → new.Owns x := fun x hx =>
    h.placed.owns_of_live h.region (h.placed.live_of_inBlock h.region hx)
  have hother : ∀ {k : ℕ} {sl' : Slot}, s.slots[k]? = some sl' → sl'.IsUser → k ≠ j := by
    rintro k sl' hk hu' rfl
    exact h.fresh sl' hk hu'
  have hdis : ∀ {k : ℕ} {sl' : Slot}, s.slots[k]? = some sl' → sl'.IsUser →
      ∀ x, new.Owns x → ¬ sl'.Owns x := fun hk hu' x hx hx' =>
    hother hk hu' (h.safe.core.eq_of_owns (h.others hk hu').1 h.slot hx' hx)
  have hji : j ≠ i := (hother hi hu).symm
  have hcopy : ∀ x, ¬ new.InBlock x →
      (t.copied q sl.userAddress sl.userSize r.userSize).mem x = t.mem x := fun x hx => by
    rw [State.copied_mem, if_neg fun hin => hx ⟨h.addr ▸ hin.1, by rw [h.addr, h.userSize]; exact hin.2⟩]
  have hjc : (t.copied q sl.userAddress sl.userSize r.userSize).slots[j]? = some new := by
    rw [State.copied_slots]
    exact h.slot
  have hslot := hf.slot hji hjc h.user
  have hmem : ∀ x, q ≤ x → x < q + r.userSize →
      u.mem x = (t.copied q sl.userAddress sl.userSize r.userSize).mem x := fun x h1 h2 =>
    hf.mem hji hjc h.user
      (hblock x ⟨h.addr ▸ h1, by rw [h.addr, h.userSize]; exact h2⟩)
  have hback : ∀ (k : ℕ) sl', k ≠ j → u.slots[k]? = some sl' → sl'.IsUser →
      k ≠ i ∧ s.slots[k]? = some sl' := fun k sl' hne hk hu' => by
    obtain ⟨hki, hk'⟩ := hf.back hk hu'
    rw [State.copied_slots] at hk'
    exact ⟨hki, h.back hne hk' hu'⟩
  exact {
    slot := hslot
    user := h.user
    allocator := h.allocator.trans hr
    addr := h.addr
    size := h.userSize
    live := fun x hx => hsafe.live hslot h.user (h.placed.live_of_inBlock h.region hx)
    fresh := fun k sl' hk hu' => ⟨hother hk hu', hdis hk hu'⟩
    head := fun x hx => by
      have hin : sl.InBlock (sl.userAddress + x) := ⟨by omega, by omega⟩
      have hown := (hwf.placed hu.1).owns_of_live hreg
        ((hwf.placed hu.1).live_of_inBlock hreg hin)
      rw [hmem _ (by omega) (by omega), State.copied_mem, if_pos (by omega), if_pos (by omega),
        Nat.add_sub_cancel_left]
      exact (h.others hi hu).2.1 _ hown
    tail := fun x h1 h2 => by
      rw [hmem _ (by omega) (by omega), State.copied_mem, if_pos (by omega), if_neg (by omega)]
    gone := fun k sl' hk hu' he => by
      by_cases hkj : k = j
      · subst hkj
        obtain rfl := Option.some.inj (hk.symm.trans hslot)
        exact hdis hi hu _ (h.placed.owns_user h.region) (he ▸ (hwf.placed hu.1).owns_user hreg)
      · obtain ⟨hki, hk'⟩ := hback k sl' hkj hk hu'
        exact hki (hs.core.eq_of_user hk' hi he (hs.core.userAddress_ne hk' hu').1)
    others := fun k sl' hki hk hu' => by
      obtain ⟨hkt, hm, hp⟩ := h.others hk hu'
      have hkc : (t.copied q sl.userAddress sl.userSize r.userSize).slots[k]? = some sl' := by
        rw [State.copied_slots]
        exact hkt
      refine ⟨hf.slot hki hkc hu', fun x hx => ?_, fun x hx => ?_,
        fun x hx => hsafe.live (hf.slot hki hkc hu') hu' hx⟩
      · rw [hf.mem hki hkc hu' hx, hcopy x fun hb => hdis hk hu' x (hblock x hb) hx, hm x hx]
      · rw [hf.page hki hkc hu' hx, State.copied_page]
        exact hp x hx
    back := hback }

theorem MovedBlock.opened (h : MovedBlock env i sl m q (s.opened env) t j new) (hc : Core env s) :
    MovedBlock env i sl m q s t j new := by
  have hk : Keeps env s (s.opened env) :=
    (Silents.calm (fun _ => False.elim) hc
      (silents_opened : Silents env (fun _ => False) s (s.opened env))).keeps
  refine { h with others := fun k sl' hne hs hu => ?_ }
  have hin := h.others k sl' hne hs hu
  refine { hin with page := fun x hx => ?_ }
  rw [← hk.page hs hu hx]
  exact hin.page x hx

theorem MovedBlock.closed (h : MovedBlock env i sl m q s t j new) (hs : Safe env t) :
    MovedBlock env i sl m q s (t.closed env) j new := by
  have hk : Keeps env t (t.closed env) :=
    (Silents.calm (fun _ => False.elim) hs.core
      (silents_closed : Silents env (fun _ => False) t (t.closed env))).keeps
  have hlive := hk.live hs.core hs.live
  have hwf := hs.core.slot h.slot
  refine { h with live := fun x hx => ?_, others := fun k sl' hne hs hu => ?_ }
  · exact hlive (hk.slot h.slot h.user) h.user
      ((hwf.placed h.user.1).live_of_inBlock (hwf.region (by rw [h.user.1]; nofun)) hx)
  · have hin := h.others k sl' hne hs hu
    exact { hin with
      page := fun x hx => by
        rw [hk.page hin.slot hu hx]
        exact hin.page x hx
      live := fun x hx => hlive (hk.slot hin.slot hu) hu hx }

/-- What is known of a `realloc` of a block behind the opening of the list. -/
theorem Moved.block (h : Safe env s) (hS : s.Serves env (Served env) (s.tls.reallocRequest m site))
    (hm0 : m ≠ 0) (hi : s.slots[i]? = some sl) (hu : sl.IsUser)
    (hM : Moved env sl.userAddress m site s q t) :
    Safe env t ∧ (q ≠ 0 → ∃ j new, MovedBlock env i sl m q s t j new) ∧
      (q = 0 → Keeps env s t) := by
  have huser : (s.tls.reallocRequest m site).allocator.type ≠ .internal :=
    show AllocType.malloc ≠ .internal by decide
  cases hM with
  | failed hs hq =>
    subst hq
    obtain ⟨hsafe, hk⟩ := hs.fails h hS huser
    exact ⟨hsafe, fun h0 => absurd rfl h0, fun _ => hk⟩
  | @done u v k sl' hs hq hk hua hd =>
    obtain ⟨j, new, hP⟩ := hs.provided h hS huser hq (Or.inl hm0)
    have hiu := (hP.others hi hu).1
    obtain rfl := hP.safe.core.eq_of_user hiu hk hua.symm (h.core.userAddress_ne hi hu).1
    obtain rfl := Option.some.inj (hiu.symm.trans hk)
    have hic : (u.copied q sl.userAddress sl.userSize m).slots[i]? = some sl := by
      rw [State.copied_slots]
      exact hiu
    obtain ⟨hsafe, hf⟩ := hd.frees hP.safe.copied (by decide) hic hu
    exact ⟨hsafe, fun _ => ⟨j, new, hP.moved rfl h hi hu hf hsafe⟩, fun h0 => absurd h0 hq⟩

theorem Realloced.block (h : Safe env s) (hr : (s.tls.reallocRequest m site).Proper env s)
    (hm : 0 < m) (hi : s.slots[i]? = some sl) (hu : sl.IsUser)
    (hR : Realloced env sl.userAddress m site (s.opened env) q u) :
    Safe env u ∧ (q ≠ 0 → ∃ j new, MovedBlock env i sl m q s (u.closed env) j new) ∧
      (q = 0 → Keeps env s (u.closed env)) := by
  have hopen : Silents env (fun _ => False) s (s.opened env) := silents_opened
  have hk := (Silents.calm (fun _ => False.elim) h.core hopen).keeps
  have hso := h.silents (fun _ => False.elim) hopen
  have hS : (s.opened env).Serves env (Served env)
      ((s.opened env).tls.reallocRequest m site) := hr.serves
  cases hR with
  | new h0 => exact absurd h0 (h.core.userAddress_ne hi hu).1
  | free _ hn => omega
  | move _ _ hM =>
    obtain ⟨hsafe, hmoved, hkept⟩ := hM.block hso hS hm.ne' hi hu
    have hclose : Silents env (fun _ => False) u (u.closed env) := silents_closed
    refine ⟨hsafe, fun hq => ?_, fun hq => ?_⟩
    · obtain ⟨j, new, hb⟩ := hmoved hq
      exact ⟨j, new, (hb.opened h.core).closed hsafe⟩
    · exact (hk.trans (hkept hq)).trans (Silents.calm (fun _ => False.elim) hsafe.core hclose).keeps

/-- A `realloc` moves the block that it is given, or leaves it and all others as they were. -/
theorem realloc_atomic (hset : settings.Proper env) (hw : Run env settings w)
    (hr : (w.st.tls.reallocRequest m site).Proper env w.st) (hm : 0 < m)
    (hi : w.st.slots[i]? = some sl) (hu : sl.IsUser)
    (he : realloc env settings sl.userAddress m site w.st = .ok q t) :
    (q ≠ 0 → ∃ j new, MovedBlock env i sl m q w.st t j new) ∧ (q = 0 → Keeps env w.st t) := by
  have hs := hw.safe hset
  obtain ⟨u, hR, rfl⟩ := (realloc_post hs.tidy).returns he
  exact (hR.block hs hr hm hi hu).2

theorem realloc_atomic_hundred : ∃ w i sl q t j new, Run Env.sample (Settings.sample 0 (-1)) w ∧
    realloc Env.sample (Settings.sample 0 (-1)) sl.userAddress 200 Site.unknown w.st = .ok q t ∧
      sl.userSize = 100 ∧ MovedBlock Env.sample i sl 200 q w.st t j new := by
  obtain ⟨w, q, t, hw, he, hp⟩ := exists_result (Settings.sample 0 (-1))
    [.malloc 100 Site.unknown] (.realloc 33558416 200 Site.unknown)
    (fun w q => decide (q ≠ 0 ∧ (w.st.tls.reallocRequest 200 Site.unknown).Proper Env.sample w.st ∧
      w.st.slots[2]?.any fun sl => sl.state = .inUse ∧ sl.allocator.type = .malloc ∧
        sl.userAddress = 33558416 ∧ sl.userSize = 100)) (by decide +kernel)
  obtain ⟨hq, hr, hsl⟩ := of_decide_eq_true hp
  obtain ⟨sl, hi, hsl⟩ := (Option.any_eq_true ..).mp hsl
  obtain ⟨hs, ha, hu, hn⟩ := of_decide_eq_true hsl
  have husr : sl.IsUser := ⟨hs, by rw [ha]; decide⟩
  have he : realloc Env.sample (Settings.sample 0 (-1)) sl.userAddress 200 Site.unknown w.st =
      .ok q t := hu ▸ he
  obtain ⟨j, new, hb⟩ := (realloc_atomic (Settings.sample_proper _ _) hw hr (by decide) hi husr
    he).1 hq
  exact ⟨w, 2, sl, q, t, j, new, hw, he, hn, hb⟩

end Move

end Duma

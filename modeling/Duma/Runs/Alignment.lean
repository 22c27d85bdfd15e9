import Duma.Runs.Blocks

/-! # Alignments

How the alignment in use is found and checked, and where it puts a block in its region.
-/

namespace Duma

variable {env : Env} {settings : Settings} {s t : State} {w : World} {c : Call} {r : Request}
  {al us n int p i k x size : ℕ} {l : Layout} {sl : Slot}

section Resolve

theorem two_pow_le_and_pred {a : ℕ} (h : 2 ^ k ≤ a) (hlt : a < 2 ^ (k + 1)) (h0 : a &&& (a - 1) ≠ 0) :
    2 ^ k ≤ a &&& (a - 1) := by
  have hne : a ≠ 2 ^ k := by
    rintro rfl
    exact h0 ((Nat.and_sub_one_eq_zero_iff_isPowerOfTwo (by positivity)).mpr ⟨k, rfl⟩)
  have high : ∀ b, 2 ^ k ≤ b → b < 2 ^ (k + 1) → b.testBit k = true := by
    intro b h1 h2
    rw [Nat.testBit_eq_decide_div_mod_eq]
    have : b / 2 ^ k = 1 := by
      rw [Nat.div_eq_iff (by positivity)]
      rw [Nat.pow_succ] at h2
      omega
    rw [this]
    rfl
  refine Nat.ge_two_pow_of_testBit ?_
  rw [Nat.testBit_and, high a h hlt, high (a - 1) (by omega) (by omega)]
  rfl

theorem two_pow_le_leadingBit {a : ℕ} (h : 2 ^ k ≤ a) (hlt : a < 2 ^ (k + 1)) :
    2 ^ k ≤ Word.leadingBit n a := by
  induction n generalizing a with
  | zero => exact h
  | succ n ih =>
    rw [Word.leadingBit]
    split
    · exact h
    · next h0 => exact ih (two_pow_le_and_pred h hlt h0) (lt_of_le_of_lt Nat.and_le_left hlt)

theorem lt_two_mul_leadingBit {a : ℕ} (h : a ≠ 0) : a < 2 * Word.leadingBit n a := by
  have h1 := Nat.log2_self_le h
  have h2 := @Nat.lt_log2_self a
  have := two_pow_le_leadingBit (n := n) h1 h2
  rw [Nat.pow_succ] at h2
  omega

theorem resolveAlignment_zero (tls : Tls) (h0 : us ≠ 0) (hus : us < 2 ^ 64) :
    (Word.ofInt tls.alignment ≤ us → resolveAlignment tls 0 us = Word.ofInt tls.alignment) ∧
    (us < Word.ofInt tls.alignment → (resolveAlignment tls 0 us).isPowerOfTwo ∧
      resolveAlignment tls 0 us ≤ us ∧ us < 2 * resolveAlignment tls 0 us) := by
  rw [resolveAlignment, if_pos rfl]
  dsimp only
  refine ⟨fun h => if_neg (by omega), fun h => ?_⟩
  rw [if_pos h]
  exact ⟨Word.leadingBit_isPowerOfTwo (j := 0) rfl (one_dvd us) h0 hus, Word.leadingBit_le 64 us,
    lt_two_mul_leadingBit h0⟩

end Resolve

section Tight

/-- `(-userSize) mod min(a, P)` -/
def gap (env : Env) (al us : ℕ) : ℕ := ((-(us : ℤ)) % ((min al env.pageSize : ℕ) : ℤ)).toNat

theorem gap_eq {d : ℕ} (hd : d < min al env.pageSize) (hdvd : min al env.pageSize ∣ us + d) :
    gap env al us = d := by
  obtain ⟨c, hc⟩ := hdvd
  have h : (-(us : ℤ)) = d + (min al env.pageSize : ℕ) * (-(c : ℤ)) := by
    have : (us : ℤ) + d = (min al env.pageSize : ℕ) * (c : ℤ) := by exact_mod_cast hc
    rw [Int.mul_neg]
    omega
  rw [gap, h, Int.add_mul_emod_self_left, Int.emod_eq_of_lt (by omega) (by omega)]
  rfl

theorem gap_of_dvd (h0 : 0 < al) (h : al ∣ us) (hd : min al env.pageSize ∣ al) :
    gap env al us = 0 := by
  have := env.pageSize_pos
  exact gap_eq (by omega) (hd.trans h)

theorem Sizes.min_dvd (h : Sizes env al us) :
    min al env.pageSize ∣ al ∧ min al env.pageSize ∣ env.pageSize := by
  rcases Nat.le_total al env.pageSize with hle | hle
  · rw [Nat.min_eq_left hle]
    exact ⟨dvd_rfl, h.al_dvd hle⟩
  · rw [Nat.min_eq_right hle]
    exact ⟨Word.two_pow_dvd env.pageSize_pow h.pow hle, dvd_rfl⟩

/-- The first byte of the dead page is as close behind the block as the alignment lets it be. -/
theorem Sizes.layoutAbove_gap (h : Sizes env al us) (hd : env.pageSize ∣ int)
    (hle : int + env.need al us < 2 ^ 64) :
    ∃ u, layoutAbove env int (env.need al us) al us = ⟨u, u + us + gap env al us⟩ ∧ al ∣ u ∧
      int ≤ u ∧ env.pageSize ∣ u + us + gap env al us ∧
      u + us + gap env al us + env.pageSize ≤ int + env.need al us := by
  obtain ⟨u, q, he, h1, h2, h3, h4, h5, h6, h7⟩ := h.layoutAbove_eq hd hle
  obtain ⟨hm1, hm2⟩ := h.min_dvd
  have hgap : gap env al us = q - (u + us) := by
    refine gap_eq (by omega) ?_
    have hq : us + (q - (u + us)) = q - u := by omega
    rw [hq]
    exact Nat.dvd_sub (hm2.trans h3) (hm1.trans h1)
  have hq : u + us + gap env al us = q := by omega
  refine ⟨u, ?_⟩
  rw [hq]
  exact ⟨he, h1, h2, h3, h7⟩

/-- The block at `p` with the dead page above it ends as close to that page as its alignment lets
it, and a whole page of the region is dead. -/
structure Tight (env : Env) (al us int n p : ℕ) (t : State) : Prop where
  dvd : al ∣ p
  le : int ≤ p
  live : ∀ x, int ≤ x → x < p + us + gap env al us → t.page env x = .readWrite
  dead : ∀ x, p + us + gap env al us ≤ x → x < int + n → t.page env x = .noAccess
  guard : p + us + gap env al us + env.pageSize ≤ int + n

theorem placeBlock_above (h : Sizes env al r.userSize) (hb : r.protectBelow = false)
    (hd : env.pageSize ∣ int) (hle : int + internalSizeFor env al r.userSize < 2 ^ 64) :
    Wp (placeBlock env int (internalSizeFor env al r.userSize) al r)
      (fun l t => Tight env al r.userSize int (internalSizeFor env al r.userSize) l.userAddr t)
      (fun _ _ => ¬ MprotectOk env s int (internalSizeFor env al r.userSize)) s := by
  have hP := env.pageSize_pos
  rw [h.internalSizeFor_eq] at hle ⊢
  obtain ⟨u, he, h1, h2, h3, h4⟩ := h.layoutAbove_gap hd hle
  have hdn := h.dvd_need
  have hend : Word.add int (env.need al r.userSize) = int + env.need al r.userSize :=
    Word.add_eq hle
  set q := u + r.userSize + gap env al r.userSize with hq
  have hlow : Word.sub q int = q - int := Word.sub_eq (by omega) (by omega)
  have hhigh : Word.sub (int + env.need al r.userSize) q = int + env.need al r.userSize - q :=
    Word.sub_eq (by omega) (by omega)
  have hr1 : env.roundUp (q - int) = q - int := Env.roundUp_of_dvd (Nat.dvd_sub h3 hd)
  have hr2 : env.roundUp (int + env.need al r.userSize - q) = int + env.need al r.userSize - q :=
    Env.roundUp_of_dvd (Nat.dvd_sub (Nat.dvd_add hd hdn) h3)
  have hrn : env.roundUp (env.need al r.userSize) = env.need al r.userSize := Env.roundUp_of_dvd hdn
  have hus := h.size_pos
  refine Wp.ite (fun h0 => absurd h0 (by omega)) fun _ => Wp.ite (fun _ => ?_) fun hb' => absurd hb hb'
  rw [he, hend]
  dsimp only
  rw [hlow, hhigh]
  have hqi : int + (q - int) = q := by omega
  have hqe : q + (int + env.need al r.userSize - q) = int + env.need al r.userSize := by omega
  refine Wp.bind_iff.mpr (mprotect_wp (fun _ => ?_) fun hno hok => hno ⟨hd, ?_, fun x hx hx' => ?_⟩)
  · rw [hr1, hqi]
    refine Wp.bind_iff.mpr (mprotect_wp (fun _ => ?_) fun hno hok => hno ⟨h3, ?_, fun x hx hx' => ?_⟩)
    · rw [hr2, hqe]
      change Tight env al r.userSize int (env.need al r.userSize) u _
      refine ⟨h1, h2, fun x hx hx' => ?_, fun x hx hx' => ?_, h4⟩
      · rw [State.setPages_page h3 (Nat.dvd_add hd hdn), if_neg (by omega),
          State.setPages_page hd h3, if_pos ⟨hx, hx'⟩]
      · rw [State.setPages_page h3 (Nat.dvd_add hd hdn), if_pos ⟨hx, hx'⟩]
    · have := hok.le
      omega
    · rw [State.setPages_page hd h3]
      split
      · nofun
      · exact hok.mapped x (by omega) (by omega)
  · have := hok.le
    omega
  · exact hok.mapped x hx (by omega)

theorem Provided.tight (h : Provided env r s p t i sl) (hs : Sizes env (s.alignFor r) r.userSize)
    (hb : r.protectBelow = false) :
    Tight env (s.alignFor r) r.userSize sl.internalAddress sl.internalSize p t := by
  have h0 := hs.size_pos.ne'
  have hn : s.sizeFor env r = env.need (s.alignFor r) r.userSize := by
    rw [State.sizeFor, if_neg h0, hs.internalSizeFor_eq]
  have hle := h.region.le
  have ht := env.taskSize_le
  have hP := env.pageSize_pos
  have hlayout := h.layout
  have hsize := h.size
  have haddr := h.addr
  have hus := h.userSize
  rw [layoutFor, if_neg h0, if_pos hb, hn] at hlayout
  obtain ⟨u, he, h1, h2, h3, h4⟩ := hs.layoutAbove_gap h.region.dvd (by omega)
  rw [he] at hlayout
  obtain ⟨rfl, hq⟩ := Layout.mk.injEq .. ▸ hlayout
  have harea : sl.accessArea = (sl.internalAddress, sl.protAddress) :=
    Slot.accessArea_of_le (by omega)
  have hlive : ∀ x, sl.Live x ↔ sl.internalAddress ≤ x ∧
      x < u + r.userSize + gap env (s.alignFor r) r.userSize := fun x => by
    rw [Slot.Live, harea, hus, hq]
    exact and_iff_right h0
  refine ⟨h1, h2, fun x hx hx' => h.live ((hlive x).mpr ⟨hx, hx'⟩), fun x hx hx' => ?_, by omega⟩
  refine h.dead ⟨by omega, hx'⟩ fun hl => ?_
  have := ((hlive x).mp hl).2
  omega

/-- A block with the dead page above it lies as close to that page as its alignment allows, in any
region and in any block that an allocation returns. -/
theorem overrun_tight (env : Env) (tls : Tls) (r : Request) (hb : r.protectBelow = false)
    (h : Sizes env (resolveAlignment tls r.alignment r.userSize) r.userSize) :
    let al := resolveAlignment tls r.alignment r.userSize
    let us := r.userSize
    let n := internalSizeFor env al us
    (r.alignment ≠ 0 → al = r.alignment) ∧
    (r.alignment = 0 → (Word.ofInt tls.alignment ≤ us → al = Word.ofInt tls.alignment) ∧
      (us < Word.ofInt tls.alignment → al.isPowerOfTwo ∧ al ≤ us ∧ us < 2 * al)) ∧
    (al ∣ us → gap env al us = 0) ∧
    (∀ (int : ℕ) (s : State), env.pageSize ∣ int → int + n < 2 ^ 64 →
      Wp (placeBlock env int n al r) (fun l t => Tight env al us int n l.userAddr t)
        (fun _ _ => ¬ MprotectOk env s int n) s) ∧
    ∀ s : State, Safe env s → s.tls = tls → r.allocator.type ≠ .internal →
      Post (allocate env r) (fun p t => p ≠ 0 → ∃ (i : ℕ) (sl : Slot), t.slots[i]? = some sl ∧
        sl.state = .inUse ∧ sl.userAddress = p ∧ sl.userSize = us ∧ env.pageSize ∣ sl.internalAddress ∧
        sl.internalSize = n ∧ Tight env al us sl.internalAddress n p t) s := by
  intro al us n
  have h0 : us ≠ 0 := h.size_pos.ne'
  have hlt := h.lt
  refine ⟨fun ha => if_neg ha, fun ha => ?_, fun hd => gap_of_dvd h.al_pos hd h.min_dvd.1,
    fun int s hd hle => placeBlock_above h hb hd hle, ?_⟩
  · have := @resolveAlignment_zero us tls h0 (by omega)
    rwa [← ha] at this
  · rintro s hs rfl hu
    have hal : s.alignFor r = al := if_neg h0
    have hn : s.sizeFor env r = n := by rw [State.sizeFor, if_neg h0, hal]
    have hserves : s.Serves env (Served env) r := by
      unfold State.Serves
      rw [hn, hal]
      exact .pos h rfl
    refine (allocate_post hu hs.tidy).post fun p t ht hp => ?_
    obtain ⟨i, sl, hp⟩ := ht.provided hs hserves hu hp (Or.inl h0)
    have htight := hp.tight (hal ▸ h) hb
    rw [hal, hp.size, hn] at htight
    exact ⟨i, sl, hp.slot, hp.user.1, hp.addr, hp.userSize, hp.region.dvd, hp.size.trans hn, htight⟩

/-- Five bytes, by default at a multiple of four, in two pages that are there. -/
theorem overrun_tight_five : ∃ l t, placeBlock Env.sample 4096 2048 4
    ((Tls.initial Env.sample).mallocRequest 5 Site.unknown)
    ((State.pristine Env.sample).created Env.sample 4096 2048) = .ok l t ∧
      Tight Env.sample 4 5 4096 2048 l.userAddr t := by
  have hok : MprotectOk Env.sample ((State.pristine Env.sample).created Env.sample 4096 2048) 4096
      2048 := by
    refine ⟨by decide, by decide, fun x h1 h2 => ?_⟩
    rw [State.created_page (by decide), if_pos ⟨h1, h2⟩]
    nofun
  have hplace := (overrun_tight Env.sample (Tls.initial Env.sample)
    ((Tls.initial Env.sample).mallocRequest 5 Site.unknown) rfl
    (show Sizes Env.sample (resolveAlignment (Tls.initial Env.sample) 0 5) 5 by decide)).2.2.2.1
    4096 ((State.pristine Env.sample).created Env.sample 4096 2048) (by decide) (by decide)
  exact (hplace.mono (fun _ _ => id) fun _ _ hno => hno hok).eq_ok

end Tight

section Requested

/-- The alignment and the size that a call asks for by name. -/
def Call.demands (env : Env) : Call → Option (ℕ × ℕ)
  | .memalign alignment size _ => some (alignment, size)
  | .posixMemalign alignment size _ => some (alignment, size)
  | .valloc size _ => some (env.pageSize, size)
  | _ => none

theorem Call.demands_post (hT : Tidy env s) (h : c.demands env = some (al, size)) :
    ∃ r, c.request env s = some r ∧ r.alignment = al ∧ r.userSize = size ∧
      r.allocator.type ≠ .internal ∧
      Post (c.exec env settings) (fun p t => p = 0 ∨ Served' env r s p t) s := by
  cases c with
  | memalign alignment size site =>
    obtain ⟨rfl, rfl⟩ := Prod.mk.injEq .. ▸ Option.some.inj h
    exact ⟨_, rfl, rfl, rfl, nofun, (memalign_post hT).post fun _ _ => Or.inr⟩
  | valloc size site =>
    obtain ⟨rfl, rfl⟩ := Prod.mk.injEq .. ▸ Option.some.inj h
    exact ⟨_, rfl, rfl, rfl, nofun, (valloc_post hT).post fun _ _ => Or.inr⟩
  | posixMemalign alignment size site =>
    obtain ⟨rfl, rfl⟩ := Prod.mk.injEq .. ▸ Option.some.inj h
    refine ⟨_, rfl, rfl, rfl, nofun, Wp.seq (posixMemalign_post hT) ?_⟩
    rintro v t (⟨rfl, -⟩ | ⟨p, hp, rfl⟩)
    · exact Or.inl rfl
    · by_cases h0 : p = 0
      · rw [if_neg (not_not.mpr h0)]
        exact Or.inl rfl
      · rw [if_pos h0]
        exact Or.inr hp
  | _ => cases h

theorem layoutFor_dvd (h0 : r.userSize ≠ 0) (hal : al.isPowerOfTwo) (hlt : al < 2 ^ 64) :
    al ∣ (layoutFor env int n al r).userAddr := by
  rw [layoutFor, if_neg h0]
  split
  · exact Word.dvd_clearLow (Word.sub_lt _ _) hlt hal
  · exact Word.dvd_clearLow (Word.sub_lt _ _) hlt hal

/-- A block of at least one byte is aligned as requested, whatever its size and its guard. -/
theorem Served'.dvd (h : Served' env r s p t) (h0 : r.userSize ≠ 0) (hp : p ≠ 0)
    (hal : r.alignment.isPowerOfTwo) (hlt : r.alignment < 2 ^ 64) : r.alignment ∣ p := by
  have hne : r.alignment ≠ 0 := (Nat.pos_of_isPowerOfTwo hal).ne'
  have halign : s.alignFor r = r.alignment := by
    rw [State.alignFor, if_neg h0, resolveAlignment, if_neg hne]
  cases h with
  | null _ hz => exact absurd hz h0
  | served _ hh =>
    cases hh with
    | none _ hz => exact absurd hz hp
    | some _ hT hpl =>
      obtain ⟨-, -, -, rfl, -⟩ := hT
      rw [hpl, halign]
      exact layoutFor_dvd h0 hal hlt

theorem Act.nullBlock {works : Config → Prop} {serves : ℕ → ℕ → Request → Prop}
    (h : Act env works serves s t) : t.nullBlock = s.nullBlock := by
  cases h with
  | silent _ hs =>
    cases hs with
    | inner hi => exact (Inners.same (.single hi)).nullBlock
    | list => rfl
    | depth => rfl
  | serve _ _ _ hi hT => exact hT.same.nullBlock.trans (Inners.same hi).nullBlock
  | release _ _ _ _ _ hr => exact hr.same.nullBlock
  | store => rfl
  | set => rfl
  | initDone => rfl

/-- The address for 0 bytes that is not in a slot is one of a page. -/
theorem Reach.dvd_nullAddr (hw : Reach env settings (fun _ c => c.Public) w) :
    env.pageSize ∣ w.st.nullBlock :=
  hw.keeps (I := fun s => env.pageSize ∣ s.nullBlock) public_driven (fun _ h => h.null_dvd)
    fun _ _ _ hs ha => ha.nullBlock ▸ hs

theorem Env.dvd_or_half_dvd (hal : al.isPowerOfTwo) :
    env.pageSize ∣ al ∨ al ∣ env.pageSize / 2 := by
  have hge := env.pageSize_ge
  obtain ⟨a, rfl⟩ := hal
  obtain ⟨m, hm⟩ := env.pageSize_pow
  rw [hm]
  rcases Nat.lt_or_ge a m with hlt | hle
  · obtain ⟨m, rfl⟩ : ∃ k, m = k + 1 := ⟨m - 1, by omega⟩
    rw [Nat.pow_succ 2 m, Nat.mul_div_cancel _ (by decide)]
    exact Or.inr (Nat.pow_dvd_pow 2 (by omega))
  · exact Or.inl (Nat.pow_dvd_pow 2 hle)

/-- The middle of a page is aligned to half a page and no more. -/
theorem Env.dvd_mid_iff (hal : al.isPowerOfTwo) (hd : env.pageSize ∣ int) :
    al ∣ int + env.pageSize / 2 ↔ al ≤ env.pageSize / 2 := by
  have hge := env.pageSize_ge
  have hpos := Nat.pos_of_isPowerOfTwo hal
  rcases @Env.dvd_or_half_dvd env _ hal with hP | hhalf
  · have hle := Nat.le_of_dvd hpos hP
    constructor
    · intro h
      have := Nat.le_of_dvd (by omega) ((Nat.dvd_add_right hd).mp (hP.trans h))
      omega
    · intro h
      omega
  · have hle := Nat.le_of_dvd (by omega) hhalf
    refine iff_of_true (Nat.dvd_add ((Word.two_pow_dvd hal env.pageSize_pow ?_).trans hd) hhalf) hle
    omega

/-- Pointers to at least one byte are aligned as requested. A pointer for 0 bytes is the shared
one, which is on a page boundary, or the middle of a page of its own. -/
theorem alignment_honoured (hw : Reach env settings (fun _ c => c.Public) w)
    (hd : c.demands env = some (al, size)) (hal : al.isPowerOfTwo) (hlt : al < 2 ^ 64)
    (hc : c.exec env settings w.st = .ok p t) (hp : p ≠ 0) :
    (size ≠ 0 → al ∣ p) ∧
    (p = w.st.nullAddr env → al ≤ env.pageSize → al ∣ p) ∧
    (size = 0 → p ≠ w.st.nullAddr env → settings.Proper env → Run env settings w →
      (al ∣ p ↔ al ≤ env.pageSize / 2)) := by
  obtain ⟨r, -, rfl, rfl, hu, hpost⟩ := @Call.demands_post env settings _ _ _ _ hw.tidy hd
  have hserved := (hpost.returns hc).resolve_left hp
  refine ⟨fun h0 => hserved.dvd h0 hp hal hlt, fun hnull hle => ?_, fun h0 hnull hset hrun => ?_⟩
  · rw [hnull]
    exact (Word.two_pow_dvd hal env.pageSize_pow hle).trans (Nat.dvd_add hw.dvd_nullAddr dvd_rfl)
  · have hS : w.st.Serves env (Served env) r := by
      unfold State.Serves State.sizeFor
      rw [if_pos h0]
      exact .zero h0 rfl
    obtain ⟨i, sl, hprov⟩ := hserved.provided (Run.safe hset hrun) hS hu hp (Or.inr hnull)
    have hlayout := hprov.layout
    rw [layoutFor, if_pos h0] at hlayout
    obtain ⟨hmid, -⟩ := Layout.mk.injEq .. ▸ hlayout
    have hle := hprov.region.le
    have ht := env.taskSize_le
    have hPl := env.pageSize_lt
    rw [Word.add_eq (by omega)] at hmid
    rw [← hmid]
    exact Env.dvd_mid_iff hal hprov.region.dvd

theorem alignment_honoured_hundred : ∃ w p t, Run Env.sample (Settings.sample 0 (-1)) w ∧
    (Call.memalign 64 100 Site.unknown).exec Env.sample (Settings.sample 0 (-1)) w.st = .ok p t ∧
      p ≠ 0 ∧ 64 ∣ p := by
  obtain ⟨w, p, t, hw, he, hp⟩ := exists_result (Settings.sample 0 (-1)) []
    (.memalign 64 100 Site.unknown) (fun _ p => p != 0) (by decide +kernel)
  have hp : p ≠ 0 := by simpa using hp
  exact ⟨w, p, t, hw, he, hp, (alignment_honoured (hw.mono _ _ fun _ _ h => h.public) rfl ⟨6, rfl⟩
    (by decide) he hp).1 (by decide)⟩

/-- A request for 0 bytes on a page boundary gets the middle of a page. -/
theorem alignment_fails : ¬ ∀ (env : Env) (settings : Settings) (w : World) (c : Call)
    (al size p : ℕ) (t : State), settings.Proper env → Run env settings w →
      c.demands env = some (al, size) → al.isPowerOfTwo → al < 2 ^ 64 →
      c.exec env settings w.st = .ok p t → p ≠ 0 → al ∣ p := by
  intro h
  obtain ⟨w, p, t, hw, he, hp⟩ := exists_result (Settings.sample 0 (-1)) []
    (.valloc 0 Site.unknown) (fun _ p => decide (p ≠ 0 ∧ ¬ 1024 ∣ p)) (by decide +kernel)
  obtain ⟨h0, hd⟩ := of_decide_eq_true hp
  exact hd (h _ _ w _ 1024 0 p t (Settings.sample_proper _ _) hw rfl ⟨10, rfl⟩ (by decide) he h0)

end Requested

section Check

theorem eq_and_not_iff {w : ℕ} (x y : BitVec w) : x = x &&& ~~~y ↔ x &&& y = 0#w := by
  have hbit : ∀ a b : Bool, (a = (a && !b)) ↔ (a && b) = false := by decide
  constructor
  · intro h
    ext i hi
    have := congrArg (·[i]) h
    simp only [BitVec.getElem_and, BitVec.getElem_not, BitVec.getElem_zero] at this ⊢
    exact (hbit _ _).mp this
  · intro h
    ext i hi
    have := congrArg (·[i]) h
    simp only [BitVec.getElem_and, BitVec.getElem_not, BitVec.getElem_zero] at this ⊢
    exact (hbit _ _).mpr this

/-- The check sees the low 32 bits, and takes none of them set for a power of two. -/
theorem alignmentPasses_iff :
    alignmentPasses al = true ↔ al % 2 ^ 32 = 0 ∨ (al % 2 ^ 32).isPowerOfTwo := by
  have hneg : -BitVec.ofNat 32 al = ~~~(BitVec.ofNat 32 al - 1#32) := by
    rw [BitVec.not_eq_neg_add]
    grind
  rw [alignmentPasses, beq_iff_eq, hneg, eq_and_not_iff, ← BitVec.toNat_inj, BitVec.toNat_and,
    BitVec.toNat_sub]
  simp only [BitVec.toNat_ofNat]
  rcases Nat.eq_zero_or_pos (al % 2 ^ 32) with h0 | h0
  · rw [h0, Nat.zero_and]
    exact iff_of_true rfl (Or.inl rfl)
  · have hlt := Nat.mod_lt al (show 0 < 2 ^ 32 by decide)
    have hsub : (2 ^ 32 - 1 % 2 ^ 32 + al % 2 ^ 32) % 2 ^ 32 = al % 2 ^ 32 - 1 := by omega
    rw [hsub, Nat.zero_mod, Nat.and_sub_one_eq_zero_iff_isPowerOfTwo h0.ne']
    exact ⟨Or.inr, fun h => h.resolve_left h0.ne'⟩

/-- The low 32 bits tell whether the number is a power of two. -/
def Telling (al : ℕ) : Prop :=
  al.isPowerOfTwo ∨ al % 2 ^ 32 ≠ 0 ∧ ¬ (al % 2 ^ 32).isPowerOfTwo

theorem alignmentPasses_of_pow (h : al.isPowerOfTwo) : alignmentPasses al = true := by
  rw [alignmentPasses_iff]
  obtain ⟨k, rfl⟩ := h
  rcases Nat.lt_or_ge k 32 with hk | hk
  · rw [Nat.mod_eq_of_lt (Nat.pow_lt_pow_right (by decide) hk)]
    exact Or.inr ⟨k, rfl⟩
  · exact Or.inl (Nat.mod_eq_zero_of_dvd (Nat.pow_dvd_pow 2 hk))

theorem Telling.pow (h : Telling al) (hp : alignmentPasses al = true) : al.isPowerOfTwo := by
  rcases h with h | ⟨h0, hno⟩
  · exact h
  · exact absurd (alignmentPasses_iff.mp hp) (not_or.mpr ⟨h0, hno⟩)

/-- The check is exact for an alignment just if its low 32 bits tell. -/
theorem alignmentPasses_exact_iff : (alignmentPasses al = true ↔ al.isPowerOfTwo) ↔ Telling al := by
  constructor
  · intro h
    by_cases hp : al.isPowerOfTwo
    · exact Or.inl hp
    · exact Or.inr (not_or.mp (mt alignmentPasses_iff.mpr (mt h.mp hp)))
  · exact fun h => ⟨h.pow, alignmentPasses_of_pow⟩

def Request.Telling (env : Env) (s : State) (r : Request) : Prop :=
  r.userSize ≠ 0 → Duma.Telling (s.alignFor r) ∧
    r.userSize + s.alignFor r + 2 * env.pageSize < 2 ^ 64

structure Call.Telling (env : Env) (s : State) (c : Call) : Prop where
  «public» : c.Public
  request : ∀ r ∈ c.request env (c.start s), r.Telling env (c.start s)
  init : ∀ t ∈ c.initSettings s, t.Passes env

theorem Post.first {α β : Type} {m : M α} {k : α → M β} {P : Prop} (h : Post m (fun _ _ => P) s) :
    Post (m >>= k) (fun _ _ => P) s :=
  Wp.seq h fun _ _ hp => Wp.intro (fun _ _ _ => hp) fun _ _ _ => trivial

theorem allocate_passes : Post (allocate env r)
    (fun _ _ => r.userSize ≠ 0 → alignmentPasses (s.alignFor r) = true) s := by
  refine Wp.bind_iff.mpr (Wp.get_iff.mpr (Wp.ite (fun _ => Wp.bind_iff.mpr trivial) fun _ => ?_))
  refine Wp.bind_iff.mpr (modifyBook_wp.mpr (Wp.ite (fun h0 => ?_) fun h0 => ?_))
  · exact Wp.intro (fun _ _ _ h => absurd h0 h) fun _ _ _ => trivial
  · refine Wp.ite (fun hp => ?_) fun _ => trivial
    rw [State.alignFor, if_neg h0]
    exact Wp.intro (fun _ _ _ _ => hp) fun _ _ _ => trivial

/-- A call that returns has checked the alignment of its request, or it was turned down before. -/
theorem Call.exec_passes (hT : Tidy env s) (hr : c.request env s = some r) :
    Post (c.exec env settings) (fun p t => (r.userSize ≠ 0 → alignmentPasses (s.alignFor r) = true) ∨
      (∃ al size site, c = .posixMemalign al size site) ∧ p = 0 ∧ t = s) s := by
  have asked : ∀ {f : State → Request}, f s = r → Post (do
      initOnDemand env settings
      allocate env (f (← get)) : M ℕ)
      (fun _ _ => r.userSize ≠ 0 → alignmentPasses (s.alignFor r) = true) s := by
    rintro f rfl
    exact demand_post hT (Wp.bind_iff.mpr (Wp.get_iff.mpr allocate_passes))
  cases c with
  | malloc size site =>
    exact (asked (f := fun s => s.tls.mallocRequest size site) (Option.some.inj hr)).post
      fun _ _ => Or.inl
  | calloc nelem elsize site =>
    exact (asked (f := fun s => s.tls.callocRequest nelem elsize site) (Option.some.inj hr)).post
      fun _ _ => Or.inl
  | memalign alignment size site =>
    exact (asked (f := fun s => s.tls.memalignRequest alignment size site) (Option.some.inj hr)).post
      fun _ _ => Or.inl
  | valloc size site =>
    exact (asked (f := fun s => s.tls.vallocRequest env size site) (Option.some.inj hr)).post
      fun _ _ => Or.inl
  | new size allocator site =>
    exact (asked (f := fun s => s.tls.newRequest size allocator site) (Option.some.inj hr)).post
      fun _ _ => Or.inl
  | posixMemalign alignment size site =>
    cases hr
    refine Wp.bind_iff.mpr (Wp.ite (fun _ => Or.inr ⟨⟨_, _, _, rfl⟩, rfl, rfl⟩) fun _ => ?_)
    refine demand_post hT (Wp.bind_iff.mpr (Wp.get_iff.mpr (Wp.seq allocate_passes fun p t ht => ?_)))
    exact Wp.ite (fun _ => Or.inl ht) fun _ => Or.inl ht
  | strdup str site =>
    refine demand_post hT (Wp.seq strlen_post ?_)
    rintro n _ ⟨hs, rfl⟩
    rw [strdup_request hs] at hr
    cases hr
    exact Wp.bind_iff.mpr (Wp.get_iff.mpr ((Post.first allocate_passes).post fun _ _ => Or.inl))
  | realloc oldBuffer newSize site =>
    refine demand_post hT (Wp.seq openAllocList_post ?_)
    rintro _ _ rfl
    simp only [Call.request] at hr
    split at hr
    · next h0 =>
      cases hr
      refine Wp.ite (fun _ => Wp.bind_iff.mpr (Wp.get_iff.mpr ?_)) fun h => absurd h0 h
      exact (Post.first allocate_passes).post fun _ _ => Or.inl
    · next h0 =>
      split at hr
      · cases hr
      · next hn =>
        cases hr
        refine Wp.ite (fun h => absurd h h0) fun _ => Wp.ite (fun h => absurd h hn) fun _ => ?_
        refine Wp.bind_iff.mpr (Wp.bind_iff.mpr (Wp.get_iff.mpr (Wp.seq allocate_passes ?_)))
        refine fun p t h => Wp.intro (fun _ _ _ => ?_) fun _ _ _ => trivial
        exact Wp.intro (fun _ _ _ => Or.inl h) fun _ _ _ => trivial
  | _ => cases hr

/-- Where the alignments tell, the calls of a run that return are proper ones. -/
theorem Reach.proper (hw : Reach env settings (fun w c => c.Telling env w.st) w) :
    Run env settings w := by
  induction hw with
  | start h => exact .start h
  | @step w w' c hw hA h ih =>
    obtain ⟨he⟩ := h
    have hT := (hw.mono _ _ fun _ _ h => h.public).tidy
    by_cases hp : c.Proper env w.st
    · exact ih.step hp (.intro he)
    · have hbad : ∃ r, c.request env (c.start w.st) = some r ∧ ¬ r.Proper env (c.start w.st) := by
        by_contra hno
        exact hp ⟨hA.public, fun r hr => by_contra fun h => hno ⟨r, hr, h⟩, hA.init⟩
      obtain ⟨r, hr, hbad⟩ := hbad
      have hstart : c.start w.st = w.st := by cases c <;> first | rfl | cases hr
      rw [hstart] at hr hbad
      rcases (Call.exec_passes hT hr).returns he with hpass | ⟨⟨al, size, site, rfl⟩, rfl, rfl⟩
      · refine absurd (fun h0 => ?_) hbad
        obtain ⟨htell, hlt⟩ := hA.request r (hstart.symm ▸ hr) h0
        rw [hstart] at htell hlt
        exact ⟨htell.pow (hpass h0), Nat.pos_of_ne_zero h0, hlt⟩
      · have hheap : w.heapAfter env (.posixMemalign al size site) 0 w.st = w.heap := by
          simp [World.heapAfter, Call.request, Call.frees]
        rw [hheap]
        exact ih

/-- The check of the alignment is exact for an alignment, and its consequence for the internal size
is true, if and only if the low 32 bits of that alignment tell. In runs of such requests no region
loses its page alignment. -/
theorem alignment_check_exact_iff (env : Env) :
    (∀ (tls : Tls) (alignment us : ℕ), 0 < us →
      let al := resolveAlignment tls alignment us
      ((alignmentPasses al = true ↔ al.isPowerOfTwo) ∧
        (alignmentPasses al = true → us + al + 2 * env.pageSize < 2 ^ 64 →
          env.pageSize ∣ internalSizeFor env al us) ↔ Telling al)) ∧
    ∀ (settings : Settings) (w : World), settings.Proper env →
      Reach env settings (fun w c => c.Telling env w.st) w →
        ∀ sl ∈ w.st.slots, env.pageSize ∣ sl.internalAddress ∧ env.pageSize ∣ sl.internalSize := by
  refine ⟨fun tls alignment us h0 => ?_, fun settings w hset hw sl hsl => ?_⟩
  · intro al
    rw [alignmentPasses_exact_iff]
    refine and_iff_left_of_imp fun h hp hlt => ?_
    have hs : Sizes env al us := ⟨h.pow hp, h0, hlt⟩
    rw [hs.internalSizeFor_eq]
    exact hs.dvd_need
  · obtain ⟨i, hi⟩ := List.mem_iff_getElem?.mp hsl
    have hwf := (Run.safe hset hw.proper).core.slot hi
    by_cases hs : sl.state = .empty
    · cases hwf with
      | empty _ ha _ hn => exact ⟨ha ▸ dvd_zero _, hn ▸ dvd_zero _⟩
      | free h => rw [h] at hs; cases hs
      | inUse h => rw [h] at hs; cases hs
      | guarded h => rcases h with h | h <;> rw [h] at hs <;> cases hs
    · exact ⟨(hwf.region hs).dvd, (hwf.region hs).size_dvd⟩

/-- An alignment of 2^32 + 16 passes the check. -/
theorem alignment_check_fails : ¬ ∀ (env : Env) (tls : Tls) (alignment us : ℕ), alignment < 2 ^ 64 →
    0 < us → let al := resolveAlignment tls alignment us
      (alignmentPasses al = true ↔ al.isPowerOfTwo) ∧
        (alignmentPasses al = true → us + al + 2 * env.pageSize < 2 ^ 64 →
          env.pageSize ∣ internalSizeFor env al us) := by
  intro h
  have := (h Env.sample (Tls.initial Env.sample) (2 ^ 32 + 16) 1 (by decide) (by decide)).1.mp
    (by decide)
  exact absurd this (by decide)

end Check

end Duma

import Duma.Region.Layout

/-! # Handing out a slot

The step in which a free slot becomes a block: the pages of its region are set up, its record
is filled in and its no man's land is initialised.
-/

namespace Duma

variable {env : Env} {s s' : State} {i n al x : ℕ} {sl : Slot} {r : Request} {l : Layout}

def layoutFor (env : Env) (int n al : ℕ) (r : Request) : Layout :=
  if r.userSize = 0 then layoutZero env int
  else if r.protectBelow = false then layoutAbove env int n al r.userSize
  else layoutBelow env int al

def State.placed (env : Env) (s : State) (int n : ℕ) (r : Request) (l : Layout) : State :=
  if r.userSize = 0 then
    s.setPages env l.protAddr
      (l.protAddr + env.roundUp (Word.sub (Word.add int n) l.protAddr)) .noAccess
  else if r.protectBelow = false then
    (s.setPages env int (int + env.roundUp (Word.sub l.protAddr int)) .readWrite).setPages env
      l.protAddr (l.protAddr + env.roundUp (Word.sub (Word.add int n) l.protAddr)) .noAccess
  else
    (s.setPages env l.userAddr
      (l.userAddr + env.roundUp (Word.sub n (Word.sub l.userAddr l.protAddr))) .readWrite).setPages
      env int (int + env.roundUp (Word.sub l.userAddr int)) .noAccess

def Slot.handed (env : Env) (s : State) (sl : Slot) (l : Layout) (r : Request) : Slot :=
  { sl.taken l r (s.recordedLine env r.site) with
    slackfill := if env.explicitInit then s.cfg.slackfill else sl.slackfill }

def State.slacked (s : State) (sl : Slot) (fill : UInt8) : State :=
  if sl.userSize = 0 then s
  else (s.store sl.accessArea.1 sl.userAddress fun _ => fill).store sl.userEnd sl.accessArea.2
    fun _ => fill

def State.took (env : Env) (s : State) (i : ℕ) (sl : Slot) (n : ℕ) (r : Request) (l : Layout) :
    State :=
  ((s.placed env sl.internalAddress n r l).putSlot i (sl.handed env s l r)).slacked
    (sl.handed env s l r) s.cfg.slackfill

/-- The end of the range that is opened for the live pages. -/
def openEnd (env : Env) (int n : ℕ) (r : Request) (l : Layout) : ℕ :=
  if r.protectBelow = false then int + env.roundUp (Word.sub l.protAddr int)
  else l.userAddr + env.roundUp (Word.sub n (Word.sub l.userAddr l.protAddr))

/-- The free slot `i` is handed out for a request that needs `n` bytes with alignment `al`. -/
inductive Take (env : Env) (n al : ℕ) (r : Request) (i : ℕ) (l : Layout) (s : State) :
    State → Prop
  | intro {sl : Slot} (hi : s.slots[i]? = some sl) (hs : sl.state = .free)
      (hfit : n ≤ env.taskSize → sl.internalSize = n)
      (hl : l = layoutFor env sl.internalAddress n al r)
      (ho : r.userSize ≠ 0 → openEnd env sl.internalAddress n r l ≤ env.taskSize) :
      Take env n al r i l s (s.took env i sl n r l)

/-- A request whose sizes do not wrap; `n` and `al` are what the code computes for it. -/
inductive Served (env : Env) (n al : ℕ) (r : Request) : Prop
  | zero (hs : r.userSize = 0) (hn : n = env.pageSize)
  | pos (h : Sizes env al r.userSize) (hn : n = internalSizeFor env al r.userSize)

/-- Nothing outside the region is opened when this request is laid out at `int`. -/
def Request.Contained (env : Env) (r : Request) (al int : ℕ) : Prop :=
  r.userSize = 0 ∨ r.protectBelow = false ∨ al ≤ env.pageSize ∨ al ∣ int + env.pageSize

namespace Served

theorem pos_dvd (h : Served env n al r) : 0 < n ∧ env.pageSize ∣ n := by
  cases h with
  | zero _ hn =>
    rw [hn]
    exact ⟨env.pageSize_pos, dvd_rfl⟩
  | pos h hn =>
    rw [hn, h.internalSizeFor_eq]
    exact ⟨Sizes.need_pos, h.dvd_need⟩

end Served

namespace Slot

/-- The address is on one of the live pages of the block. -/
def Live (sl : Slot) (x : ℕ) : Prop :=
  sl.userSize ≠ 0 ∧ sl.accessArea.1 ≤ x ∧ x < sl.accessArea.2

def InBlock (sl : Slot) (x : ℕ) : Prop :=
  sl.userAddress ≤ x ∧ x < sl.userAddress + sl.userSize

def Slack (sl : Slot) (x : ℕ) : Prop := sl.Live x ∧ ¬ sl.InBlock x

theorem accessArea_of_le (h : sl.userAddress ≤ sl.protAddress) :
    sl.accessArea = (sl.internalAddress, sl.protAddress) := if_neg (by omega)

theorem accessArea_of_lt (h : sl.protAddress < sl.userAddress) (hr : sl.RegionOk env) :
    sl.accessArea = (sl.userAddress, sl.internalAddress + sl.internalSize) := by
  have := hr.le
  have := env.taskSize_le
  rw [accessArea, if_pos h, Word.add_eq (by omega)]

namespace Placed

variable (h : sl.Placed env) (hr : sl.RegionOk env)
include h hr

omit hr in
theorem userEnd_le : sl.userAddress + sl.userSize ≤ sl.internalAddress + sl.internalSize := by
  have := env.pageSize_pos
  cases h <;> omega

theorem userEnd_eq : sl.userEnd = sl.userAddress + sl.userSize := by
  have := h.userEnd_le
  have := hr.le
  have := env.taskSize_le
  exact Word.add_eq (by omega)

theorem area (h0 : sl.userSize ≠ 0) : sl.accessArea.1 ≤ sl.userAddress ∧
    sl.userEnd ≤ sl.accessArea.2 ∧ sl.internalAddress ≤ sl.accessArea.1 ∧
    sl.accessArea.2 ≤ sl.internalAddress + sl.internalSize := by
  have hP := env.pageSize_pos
  have hpos := hr.pos
  rw [h.userEnd_eq hr]
  cases h with
  | zero hs => exact absurd hs h0
  | above hs hu _ hle _ hend =>
    rw [accessArea_of_le (by omega)]
    exact ⟨hu, hle, le_rfl, by simp only; omega⟩
  | below _ hu hp hle hend =>
    rw [accessArea_of_lt (by omega) hr]
    exact ⟨le_rfl, hend, by simp only; omega, le_rfl⟩
  | list hs hu hp =>
    rw [accessArea_of_lt (by omega) hr]
    exact ⟨le_rfl, by simp only; omega, by simp only; omega, le_rfl⟩

theorem slack_iff (h0 : sl.userSize ≠ 0) :
    sl.Slack x ↔ (sl.accessArea.1 ≤ x ∧ x < sl.userAddress) ∨
      (sl.userEnd ≤ x ∧ x < sl.accessArea.2) := by
  obtain ⟨h1, h2, -, -⟩ := h.area hr h0
  rw [h.userEnd_eq hr] at h2 ⊢
  simp only [Slack, Live, InBlock]
  omega

theorem owns_of_live (hx : sl.Live x) : sl.Owns x := by
  obtain ⟨-, -, h3, h4⟩ := h.area hr hx.1
  exact ⟨h3.trans hx.2.1, hx.2.2.trans_le h4⟩

theorem live_of_inBlock (hx : sl.InBlock x) : sl.Live x := by
  have h0 : sl.userSize ≠ 0 := by
    obtain ⟨h1, h2⟩ := hx
    omega
  obtain ⟨h1, h2, -, -⟩ := h.area hr h0
  rw [h.userEnd_eq hr] at h2
  exact ⟨h0, h1.trans hx.1, hx.2.trans_le h2⟩

theorem not_slack (hi : sl.userAddress = sl.internalAddress) (hd : env.pageSize ∣ sl.userSize) :
    ¬ sl.Slack x := by
  intro hx
  have h0 := hx.1.1
  have hP := env.pageSize_pos
  rw [h.slack_iff hr h0, h.userEnd_eq hr] at hx
  cases h with
  | zero hs => exact h0 hs
  | above hs hu hp hle hlt hend =>
    rw [accessArea_of_le (by omega)] at hx
    have := @Env.le_of_lt_add env _ _ hp (Nat.dvd_add (hi ▸ hr.dvd) hd) (by omega)
    simp only at hx
    omega
  | below _ hu hp hle hend => omega
  | list hs hu hp =>
    have := hr.pos
    rw [accessArea_of_lt (by omega) hr] at hx
    simp only at hx
    omega

end Placed

end Slot

theorem State.slacked_mem (hp : sl.Placed env) (hr : sl.RegionOk env) {fill : UInt8}
    [Decidable (sl.Slack x)] :
    (s.slacked sl fill).mem x = if sl.Slack x then fill else s.mem x := by
  unfold State.slacked
  split
  · next h0 => rw [if_neg fun hx => hx.1.1 h0]
  · next h0 =>
    have := hp.slack_iff (x := x) hr h0
    simp only [State.store]
    grind

theorem Served.le_taskSize (h : Served env n al r) (hr : sl.RegionOk env)
    (ho : r.userSize ≠ 0 → openEnd env sl.internalAddress n r
      (layoutFor env sl.internalAddress n al r) ≤ env.taskSize) : n ≤ env.taskSize := by
  have hP := env.pageSize_pos
  have hPl := env.pageSize_lt
  have ht := env.taskSize_le
  have hle := hr.le
  have hpos := hr.pos
  have hge : env.pageSize ≤ sl.internalAddress := Nat.le_of_dvd hr.pos hr.dvd
  have hge' : env.pageSize ≤ sl.internalSize := Nat.le_of_dvd hr.size_pos hr.size_dvd
  cases h with
  | zero _ hn => omega
  | pos h hn =>
    have h0 : r.userSize ≠ 0 := h.size_pos.ne'
    have ho := ho h0
    have hlt := h.lt
    have hru := env.roundUp_lt r.userSize
    have hru' := env.le_roundUp r.userSize
    have hdn := h.dvd_need
    rw [h.internalSizeFor_eq] at hn
    have hneed : n = env.roundUp r.userSize + env.pageSize + (al - env.pageSize) := hn
    rw [← hn] at hdn
    have hal63 : al ≤ 2 ^ 63 := by
      obtain ⟨k, hk⟩ := h.pow
      have hk' := Word.two_pow_exp_lt (hk ▸ h.al_lt)
      rw [hk]
      exact Nat.pow_le_pow_right (by decide) (by omega)
    have hn64 : n < 2 ^ 64 := by omega
    by_contra hnt
    unfold openEnd layoutFor at ho
    rw [if_neg h0] at ho
    split at ho
    · simp only [layoutAbove] at ho
      set X := Word.sub (Word.sub (Word.add sl.internalAddress n) env.pageSize) r.userSize with hX
      have hXv : X = sl.internalAddress + n - env.pageSize - r.userSize :=
        Word.sub_sub_add_eq env.pageSize_word (by omega) (by omega)
      have hXlt : X < 2 ^ 64 := Word.sub_lt _ _
      have hu1 := Word.clearLow_le hXlt h.al_lt h.pow
      have hu2 := Word.lt_clearLow_add hXlt h.al_lt h.pow
      have hu3 := Word.dvd_clearLow hXlt h.al_lt h.pow
      have hu4 := Word.le_clearLow (y := env.pageSize) hXlt h.al_lt h.pow
      have hu5 := Word.le_clearLow (y := al) hXlt h.al_lt h.pow dvd_rfl
      set u := Word.clearLow X al
      have hend : n < u + r.userSize + env.pageSize := by
        rcases Nat.lt_or_ge env.pageSize al with hP' | hP'
        · have := hu5 (by omega)
          omega
        · have := hu4 (h.al_dvd hP') (by omega)
          omega
      set Y := Word.sub (Word.add (Word.add u r.userSize) env.pageSize) 1 with hY
      have hYlt : Y < 2 ^ 64 := Word.sub_lt _ _
      have hYv : Y = (u + r.userSize + env.pageSize - 1) % 2 ^ 64 :=
        Word.sub_add_add_eq (by omega)
      have hq1 := Word.clearLow_le hYlt env.pageSize_word env.pageSize_pow
      have hq2 := Word.lt_clearLow_add hYlt env.pageSize_word env.pageSize_pow
      have hq3 := Word.dvd_clearLow hYlt env.pageSize_word env.pageSize_pow
      set q := Word.clearLow Y env.pageSize
      have hlen := env.le_roundUp (Word.sub q sl.internalAddress)
      rcases Nat.lt_or_ge (u + r.userSize + env.pageSize - 1) (2 ^ 64) with hw | hw
      · rw [Nat.mod_eq_of_lt hw] at hYv
        have hnq : n ≤ q := Env.le_of_lt_add hdn hq3 (by omega)
        have : Word.sub q sl.internalAddress = q - sl.internalAddress :=
          Word.sub_eq (by omega) (by omega)
        omega
      · have hY' : Y ≤ u + r.userSize + env.pageSize - 1 - 2 ^ 64 := by omega
        have : Word.sub q sl.internalAddress = q + 2 ^ 64 - sl.internalAddress :=
          Word.sub_eq_wrap (by omega) (by omega)
        omega
    · simp only [layoutBelow] at ho
      set X := Word.sub (Word.add (Word.add sl.internalAddress env.pageSize) al) 1 with hX
      have hXv : X = sl.internalAddress + env.pageSize + al - 1 := by
        rw [hX, Word.sub_add_add_eq (by omega), Nat.mod_eq_of_lt (by omega)]
      have hXlt : X < 2 ^ 64 := Word.sub_lt _ _
      have hu1 := Word.clearLow_le hXlt h.al_lt h.pow
      have hu2 := Word.lt_clearLow_add hXlt h.al_lt h.pow
      have hu3 := Word.dvd_clearLow hXlt h.al_lt h.pow
      have hu4 := Word.le_clearLow (y := sl.internalAddress + env.pageSize) hXlt h.al_lt h.pow
      set u := Word.clearLow X al
      have h1 := Word.clearLow_le (x := u) (by omega) env.pageSize_word env.pageSize_pow
      have h2 := Word.lt_clearLow_add (x := u) (by omega) env.pageSize_word env.pageSize_pow
      have h3 := Word.le_clearLow (x := u) (y := env.pageSize) (by omega) env.pageSize_word
        env.pageSize_pow dvd_rfl (by omega)
      rw [Word.sub_eq (x := Word.clearLow u env.pageSize) (by omega) h3] at ho
      set d := Word.sub u (Word.clearLow u env.pageSize - env.pageSize) with hd
      have hdv : d = u - (Word.clearLow u env.pageSize - env.pageSize) :=
        Word.sub_eq (by omega) (by omega)
      have hlen := env.le_roundUp (Word.sub n d)
      rw [Word.sub_eq hn64 (by omega)] at hlen ho
      omega

section Layouts

variable (h : Served env n al r) (hr : sl.RegionOk env) (hn : sl.internalSize = n)
include h hr hn

omit hr hn in
theorem Served.eq_pageSize (h0 : r.userSize = 0) : n = env.pageSize := by
  cases h with
  | zero _ hn' => exact hn'
  | pos h' => exact absurd h0 h'.size_pos.ne'

theorem Served.fits (h0 : r.userSize ≠ 0) :
    n = env.need al r.userSize ∧ Fits env al r.userSize sl.internalAddress := by
  cases h with
  | zero hs => exact absurd hs h0
  | pos h hn' =>
    rw [h.internalSizeFor_eq] at hn'
    exact ⟨hn', { h with pos := hr.pos, dvd := hr.dvd, le := by have := hr.le; omega }⟩

theorem Served.placed : (sl.handed env s (layoutFor env sl.internalAddress n al r) r).Placed env := by
  by_cases h0 : r.userSize = 0
  · have hnP := h.eq_pageSize h0
    have ht := env.taskSize_le
    have hle := hr.le
    have hP := env.pageSize_pos
    rw [layoutFor, if_pos h0]
    exact .zero h0 (Word.add_eq (by omega)) rfl (hn.trans hnP)
  obtain ⟨hn', hf⟩ := h.fits hr hn h0
  have hn'' := hn.trans hn'
  rw [layoutFor, if_neg h0]
  split
  · obtain ⟨u, q, he, -, h1, h2, h3, h4, h5⟩ := hf.above
    rw [hn', he]
    exact .above (Nat.pos_of_ne_zero h0) h1 h2 h3 h4 (hn''.symm ▸ h5)
  · obtain ⟨u, q, he, -, h1, h2, h3, h4, -, -⟩ := hf.below
    rw [he]
    exact .below (Nat.pos_of_ne_zero h0) h1 h2 h3 (hn''.symm ▸ h4)

/-- The permissions of every page after the block has been laid out. -/
theorem Served.placed_page (x : ℕ) :
    let l := layoutFor env sl.internalAddress n al r
    let new := sl.handed env s l r
    let t := s.placed env sl.internalAddress n r l
    (new.Live x → t.page env x = .readWrite) ∧
    (new.Owns x → ¬ new.Live x → t.page env x = .noAccess) ∧
    (¬ new.Owns x → t.page env x = s.page env x ∨ t.page env x = .readWrite) ∧
    (¬ new.Owns x → r.Contained env al sl.internalAddress → t.page env x = s.page env x) := by
  intro l new t
  have hP := env.pageSize_pos
  have ht := env.taskSize_le
  have hle := hr.le
  have hown : new.Owns x ↔ sl.internalAddress ≤ x ∧ x < sl.internalAddress + n := by rw [← hn]; rfl
  by_cases h0 : r.userSize = 0
  · have hnP := h.eq_pageSize h0
    have hq : l.protAddr = sl.internalAddress := by simp only [l, layoutFor, if_pos h0]; rfl
    have hlen : Word.sub (Word.add sl.internalAddress n) sl.internalAddress = n := by
      rw [Word.add_eq (by omega), Word.sub_eq (by omega) (by omega)]; omega
    have hpage : t.page env x = if sl.internalAddress ≤ x ∧ x < sl.internalAddress + n then .noAccess
        else s.page env x := by
      simp only [t, State.placed, if_pos h0, hq, hlen]
      rw [State.setPages_page hr.dvd (Nat.dvd_add hr.dvd (Env.dvd_roundUp n)),
        Env.roundUp_of_dvd (hnP ▸ dvd_rfl)]
    have hlive : ¬ new.Live x := fun hx => hx.1 h0
    rw [hpage, hown]
    grind
  obtain ⟨hn', hf⟩ := h.fits hr hn h0
  have hadd : Word.add sl.internalAddress n = sl.internalAddress + n := Word.add_eq (by omega)
  have hdn : env.pageSize ∣ n := h.pos_dvd.2
  by_cases hb : r.protectBelow = false
  · obtain ⟨u, q, he, -, h1, h2, h3, h4, h5⟩ := hf.above
    rw [← hn'] at he h5
    have hl : l = ⟨u, q⟩ := by simp only [l, layoutFor, if_neg h0, if_pos hb, he]
    have hlive : new.Live x ↔ sl.internalAddress ≤ x ∧ x < q := by
      have : new.accessArea = (sl.internalAddress, q) := by
        have := @Slot.accessArea_of_le new (show new.userAddress ≤ new.protAddress by
          simp only [new, hl, Slot.handed, Slot.taken]; omega)
        rw [this]
        simp only [new, hl, Slot.handed, Slot.taken]
      rw [Slot.Live, this]
      exact ⟨fun hx => hx.2, fun hx => ⟨h0, hx⟩⟩
    have hlen1 : Word.sub q sl.internalAddress = q - sl.internalAddress :=
      Word.sub_eq (by omega) (by omega)
    have hlen2 : Word.sub (sl.internalAddress + n) q = sl.internalAddress + n - q :=
      Word.sub_eq (by omega) (by omega)
    have hd1 : env.pageSize ∣ q - sl.internalAddress := Nat.dvd_sub h2 hr.dvd
    have hd2 : env.pageSize ∣ sl.internalAddress + n - q := Nat.dvd_sub (Nat.dvd_add hr.dvd hdn) h2
    have hpage : t.page env x = if q ≤ x ∧ x < sl.internalAddress + n then .noAccess
        else if sl.internalAddress ≤ x ∧ x < q then .readWrite else s.page env x := by
      simp only [t, State.placed, if_neg h0, if_pos hb, hl, hadd, hlen1, hlen2]
      rw [Env.roundUp_of_dvd hd1, Env.roundUp_of_dvd hd2,
        State.setPages_page h2 (Nat.dvd_add h2 hd2),
        State.setPages_page hr.dvd (Nat.dvd_add hr.dvd hd1),
        show q + (sl.internalAddress + n - q) = sl.internalAddress + n by omega,
        show sl.internalAddress + (q - sl.internalAddress) = q by omega]
    rw [hpage, hlive, hown]
    grind
  · obtain ⟨u, q, he, -, h1, h2, h3, h4, h5, h6, h7⟩ := hf.below
    rw [← hn'] at h4
    have hl : l = ⟨u, q⟩ := by simp only [l, layoutFor, if_neg h0, if_neg hb, he]
    have hlive : new.Live x ↔ u ≤ x ∧ x < sl.internalAddress + n := by
      have hr' : new.RegionOk env := ⟨hr.pos, hr.dvd, hr.size_dvd, hr.size_pos, hr.le⟩
      have : new.accessArea = (u, sl.internalAddress + n) := by
        rw [@Slot.accessArea_of_lt env new (by
          simp only [new, hl, Slot.handed, Slot.taken]; omega) hr', ← hn]
        simp only [new, hl, Slot.handed, Slot.taken]
      rw [Slot.Live, this]
      exact ⟨fun hx => hx.2, fun hx => ⟨h0, hx⟩⟩
    have hnge : env.pageSize ≤ n := by rw [hn', Env.need]; omega
    have hlen1 : Word.sub n (Word.sub u q) = n - env.pageSize := by
      rw [Word.sub_eq (x := u) (y := q) (by omega) (by omega),
        show u - q = env.pageSize by omega, Word.sub_eq (by omega) hnge]
    have hlen2 : Word.sub u sl.internalAddress = u - sl.internalAddress :=
      Word.sub_eq (by omega) (by omega)
    have hd1 : env.pageSize ∣ n - env.pageSize := Nat.dvd_sub hdn dvd_rfl
    have hd2 : env.pageSize ∣ u - sl.internalAddress := Nat.dvd_sub h1 hr.dvd
    have hpage : t.page env x = if sl.internalAddress ≤ x ∧ x < u then .noAccess
        else if u ≤ x ∧ x < u + (n - env.pageSize) then .readWrite else s.page env x := by
      simp only [t, State.placed, if_neg h0, if_neg hb, hl, hlen1, hlen2]
      rw [Env.roundUp_of_dvd hd1, Env.roundUp_of_dvd hd2,
        State.setPages_page hr.dvd (Nat.dvd_add hr.dvd hd2),
        State.setPages_page h1 (Nat.dvd_add h1 hd1),
        show sl.internalAddress + (u - sl.internalAddress) = u by omega]
    have hcont : r.Contained env al sl.internalAddress → u = sl.internalAddress + env.pageSize := by
      rintro (hc | hc | hc)
      exacts [absurd hc h0, absurd hc hb, h6 hc]
    rw [hpage, hlive, hown]
    have hmin : u + (n - env.pageSize) ≥ sl.internalAddress + n := by omega
    refine ⟨fun hx => ?_, fun hx hx' => ?_, fun hx => ?_, fun hx hc => ?_⟩
    · rw [if_neg (by omega), if_pos (by omega)]
    · rw [if_pos (by omega)]
    · rw [if_neg (by omega)]
      split
      exacts [Or.inr rfl, Or.inl rfl]
    · have := hcont hc
      rw [if_neg (by omega), if_neg (by omega)]

end Layouts

theorem State.placed_eq (s : State) (int n : ℕ) (r : Request) (l : Layout) :
    s.placed env int n r l = { s with pages := (s.placed env int n r l).pages } := by
  unfold State.placed
  split
  · rfl
  · split <;> rfl

theorem State.slacked_eq (s : State) (sl : Slot) (fill : UInt8) :
    s.slacked sl fill = { s with mem := (s.slacked sl fill).mem } := by
  unfold State.slacked
  split <;> rfl

/-- What a request must be for its slot to be well formed: one of the allocator itself takes
whole pages for its list. -/
def Request.ListLike (env : Env) (r : Request) (al : ℕ) : Prop :=
  r.allocator.type = .internal → r.allocator = .intAlloc ∧ al = 1 ∧ r.protectBelow = false ∧
    0 < r.userSize ∧ env.pageSize ∣ r.userSize

section Took

variable (h : Core env s) (hi : s.slots[i]? = some sl) (hs : sl.state = .free)
  (hS : Served env n al r) (hr : sl.RegionOk env) (hn : sl.internalSize = n)

theorem State.took_eq : ∃ mem trace,
    s.took env i sl n r l =
      { s with
        pages := (s.placed env sl.internalAddress n r l).pages
        slots := s.slots.set i (sl.handed env s l r), mem, trace } ∧
      ∀ x, held trace x ↔ held s.trace x := by
  obtain ⟨pages, hp⟩ : ∃ pages, s.placed env sl.internalAddress n r l = { s with pages } :=
    ⟨_, State.placed_eq _ _ _ _ _⟩
  obtain ⟨t, ht, hheld⟩ := State.putSlot_eq { s with pages } i (sl.handed env s l r)
  refine ⟨(s.took env i sl n r l).mem, t, ?_, hheld⟩
  rw [State.took, hp, State.slacked_eq, ht]

include hi in
theorem State.took_slot (k : ℕ) : (s.took env i sl n r l).slots[k]? =
    if i = k then some (sl.handed env s l r) else s.slots[k]? := by
  obtain ⟨mem, trace, he, -⟩ := @State.took_eq env s i n sl r l
  have hlt : i < s.slots.length := (List.getElem?_eq_some_iff.mp hi).1
  rw [he]
  simp [List.getElem?_set, hlt]

theorem State.took_page : (s.took env i sl n r l).page env x =
    (s.placed env sl.internalAddress n r l).page env x := by
  obtain ⟨mem, trace, he, -⟩ := @State.took_eq env s i n sl r l
  rw [he]
  rfl

include hS hr hn in
theorem State.took_mem [Decidable ((sl.handed env s
    (layoutFor env sl.internalAddress n al r) r).Slack x)] :
    (s.took env i sl n r (layoutFor env sl.internalAddress n al r)).mem x =
      if (sl.handed env s (layoutFor env sl.internalAddress n al r) r).Slack x
      then s.cfg.slackfill else s.mem x := by
  rw [State.took, State.slacked_mem (hS.placed hr hn)
    ⟨hr.pos, hr.dvd, hr.size_dvd, hr.size_pos, hr.le⟩, State.putSlot_mem, State.placed_eq]

include hr hS hn in
theorem Slot.WellFormed.handed (hL : r.ListLike env al) :
    (sl.handed env s (layoutFor env sl.internalAddress n al r) r).WellFormed env := by
  have hp := hS.placed (s := s) hr hn
  have hr' : (sl.handed env s (layoutFor env sl.internalAddress n al r) r).RegionOk env :=
    ⟨hr.pos, hr.dvd, hr.size_dvd, hr.size_pos, hr.le⟩
  refine .inUse rfl hr' hp fun hint => ?_
  obtain ⟨ha, hal, hb, hus, hd⟩ := hL hint
  refine ⟨ha, ?_, hus, hd⟩
  obtain ⟨hn', hf⟩ := hS.fits hr hn (by omega)
  obtain ⟨u, q, he, -, h1, h2, h3, h4, h5⟩ := hf.above
  have hP := env.pageSize_pos
  have hu : (sl.handed env s (layoutFor env sl.internalAddress n al r) r).userAddress = u := by
    simp only [Slot.handed, Slot.taken, layoutFor, if_neg hus.ne', if_pos hb, hn', he]
  rw [hu]
  have := Env.roundUp_of_dvd hd
  change u = sl.internalAddress
  simp only [Env.need] at h5
  omega

include h hi hs hS hr hn in
theorem Core.took (hL : r.ListLike env al) :
    Core env (s.took env i sl n r (layoutFor env sl.internalAddress n al r)) := by
  set l := layoutFor env sl.internalAddress n al r
  have hpage := hS.placed_page (s := s) hr hn
  have hplaced : Core env (s.placed env sl.internalAddress n r l) := by
    rw [State.placed_eq]
    refine h.of_pages fun x hx => ?_
    obtain ⟨h1, h2, h3, -⟩ := hpage x
    change (s.placed env sl.internalAddress n r l).page env x ≠ .unmapped
    by_cases hown : (sl.handed env s l r).Owns x
    · by_cases hlive : (sl.handed env s l r).Live x
      · rw [h1 hlive]; nofun
      · rw [h2 hown hlive]; nofun
    · rcases h3 hown with hx' | hx'
      · rw [hx']; exact h.mapped hx
      · rw [hx']; nofun
  have hi' : (s.placed env sl.internalAddress n r l).slots[i]? = some sl := by
    rw [State.placed_eq]; exact hi
  rw [State.took, State.slacked_eq]
  refine (hplaced.relabel hi' (by rw [hs]; nofun) (fun hl => ?_)
    (Slot.WellFormed.handed hS hr hn hL) fun x => Iff.rfl).of_mem
  rw [hl.state] at hs; cases hs

end Took

/-- What handing out a slot does, for a request that is served within its region. -/
structure Taken (env : Env) (n al : ℕ) (r : Request) (i : ℕ) (l : Layout) (s s' : State)
    (sl new : Slot) : Prop where
  old : s.slots[i]? = some sl
  free : sl.state = .free
  size : sl.internalSize = n
  region : sl.RegionOk env
  layout : l = layoutFor env sl.internalAddress n al r
  new_eq : new = sl.handed env s l r
  placed : new.Placed env
  region' : new.RegionOk env
  slot : ∀ k : ℕ, s'.slots[k]? = if i = k then some new else s.slots[k]?
  live : ∀ ⦃x⦄, new.Live x → s'.page env x = .readWrite
  dead : ∀ ⦃x⦄, new.Owns x → ¬ new.Live x → s'.page env x = .noAccess
  outside : ∀ ⦃x⦄, ¬ new.Owns x → s'.page env x = s.page env x ∨ s'.page env x = .readWrite
  contained : r.Contained env al sl.internalAddress → ∀ ⦃x⦄, ¬ new.Owns x →
    s'.page env x = s.page env x
  slack : ∀ ⦃x⦄, new.Slack x → s'.mem x = s.cfg.slackfill
  mem : ∀ ⦃x⦄, ¬ new.Slack x → s'.mem x = s.mem x
  frame : s'.cfg = s.cfg ∧ s'.tls = s.tls ∧ s'.book = s.book ∧ s'.initDone = s.initDone ∧
    s'.nullBlock = s.nullBlock ∧ s'.allocList = s.allocList ∧ s'.allocListSize = s.allocListSize
  held : ∀ x, held s'.trace x ↔ held s.trace x

theorem Take.taken (h : Core env s) (hS : Served env n al r) (ht : Take env n al r i l s s') :
    ∃ sl new, Taken env n al r i l s s' sl new := by
  classical
  obtain ⟨hi, hs, hfit, hl, ho⟩ := ht
  rename_i sl
  have hr := (h.slot hi).region (by rw [hs]; nofun)
  have hn := hfit (hS.le_taskSize hr fun h0 => hl ▸ ho h0)
  have hpage := fun x => hS.placed_page (s := s) hr hn x
  obtain ⟨mem, trace, he, hheld⟩ := @State.took_eq env s i n sl r l
  subst hl
  exact ⟨sl, _, {
    old := hi, free := hs, size := hn, region := hr, layout := rfl, new_eq := rfl
    placed := hS.placed hr hn
    region' := ⟨hr.pos, hr.dvd, hr.size_dvd, hr.size_pos, hr.le⟩
    slot := State.took_slot hi
    live := fun x hx => by rw [State.took_page]; exact (hpage x).1 hx
    dead := fun x hx hx' => by rw [State.took_page]; exact (hpage x).2.1 hx hx'
    outside := fun x hx => by rw [State.took_page]; exact (hpage x).2.2.1 hx
    contained := fun hc x hx => by rw [State.took_page]; exact (hpage x).2.2.2 hx hc
    slack := fun x hx => by rw [State.took_mem hS hr hn, if_pos hx]
    mem := fun x hx => by rw [State.took_mem hS hr hn, if_neg hx]
    frame := by rw [he]; exact ⟨rfl, rfl, rfl, rfl, rfl, rfl, rfl⟩
    held := fun x => by rw [he]; exact hheld x }⟩

theorem Take.core (h : Core env s) (hS : Served env n al r) (hL : r.ListLike env al)
    (ht : Take env n al r i l s s') : Core env s' := by
  obtain ⟨hi, hs, hfit, hl, ho⟩ := ht
  have hr := (h.slot hi).region (by rw [hs]; nofun)
  have hn := hfit (hS.le_taskSize hr fun h0 => hl ▸ ho h0)
  subst hl
  exact h.took hi hs hS hr hn hL

end Duma

import Duma.Environ.Lookup
import Duma.Environ.Numbers

/-! # The settings of an environment

Whatever the environment says, the settings are in range; and all settings in range are those of an
environment that says so.
-/

namespace Duma

variable {environ : List CString} {cfg : Config} {tls : Tls} {name : String} {n : ℤ} {b : Bool}

attribute [ext] Config Tls

structure Config.Ranged (cfg : Config) : Prop where
  checkFreq : 0 ≤ cfg.checkFreq ∧ cfg.checkFreq < 2 ^ 31
  protectFree : -2 ^ 63 ≤ cfg.protectFree ∧ cfg.protectFree < 2 ^ 63
  maxAlloc : -2 ^ 63 ≤ cfg.maxAlloc ∧ cfg.maxAlloc < 2 ^ 63
  malloc0Strategy : cfg.malloc0Strategy ≤ 3
  new0Strategy : cfg.new0Strategy = 2 ∨ cfg.new0Strategy = 3

structure Tls.Ranged (tls : Tls) : Prop where
  alignment : -2 ^ 31 ≤ tls.alignment ∧ tls.alignment < 2 ^ 31 ∧ tls.alignment ≠ 0
  fill : -1 ≤ tls.fill ∧ tls.fill ≤ 255

/-- The variable has a value that begins with this number. -/
def Gives (environ : List CString) (p : String × ℤ) : Prop :=
  ∃ v, dumaGetenv (Print.chars p.1) environ = some v ∧ Denotes v.text p.2

def flagValue (b : Bool) : ℤ := if b then 1 else 0

/-- What an environment has to say for these settings. -/
def wanted (cfg : Config) (tls : Tls) : List (String × ℤ) :=
  [("DUMA_ALIGNMENT", tls.alignment), ("DUMA_PROTECT_BELOW", flagValue tls.protectBelow),
    ("DUMA_FILL", tls.fill), ("DUMA_REPORT_ALL_LEAKS", flagValue cfg.reportAllLeaks),
    ("DUMA_PROTECT_FREE", cfg.protectFree), ("DUMA_MAX_ALLOC", cfg.maxAlloc),
    ("MALLOC_0_STRATEGY", cfg.malloc0Strategy), ("NEW_0_STRATEGY", cfg.new0Strategy),
    ("DUMA_MALLOC_FAILEXIT", flagValue cfg.mallocFailexit),
    ("DUMA_FREE_ACCESS", flagValue cfg.freeAccess), ("DUMA_SLACKFILL", cfg.slackfill.toNat),
    ("DUMA_MEMCPY_OVERLAP", flagValue cfg.memcpyOverlap), ("DUMA_CHECK_FREQ", cfg.checkFreq)]

section Range

theorem getInt_range (h : getInt environ name = some n) : -2 ^ 31 ≤ n ∧ n < 2 ^ 31 := by
  obtain ⟨v, -, rfl⟩ := Option.map_eq_some_iff.mp h
  exact atoi_range v.text

theorem getLong_range {old : ℤ} (h : -2 ^ 63 ≤ old ∧ old < 2 ^ 63) :
    -2 ^ 63 ≤ getLong environ name old ∧ getLong environ name old < 2 ^ 63 := by
  unfold getLong
  split
  · exact strtol_range _
  · exact h

theorem getStrategy_range {least greatest : ℤ} {old : ℕ} {P : ℕ → Prop} (hold : P old)
    (hP : ∀ k : ℕ, least ≤ k → k ≤ greatest → P k) (h0 : 0 ≤ least) :
    P (getStrategy environ name least greatest old) := by
  unfold getStrategy
  split
  · split
    · next h => exact hP _ (by omega) (by omega)
    · exact hold
  · exact hold

theorem getenvvars_ranged (hc : cfg.Ranged) (ht : tls.Ranged) :
    (getenvvars environ cfg tls).cfg.Ranged ∧ (getenvvars environ cfg tls).tls.Ranged := by
  constructor
  · constructor
    · change 0 ≤ getCheckFreq environ cfg.checkFreq ∧ getCheckFreq environ cfg.checkFreq < 2 ^ 31
      unfold getCheckFreq
      split
      · next h =>
        have := getInt_range h
        split
        · omega
        · exact hc.checkFreq
      · exact hc.checkFreq
    · exact getLong_range hc.protectFree
    · exact getLong_range hc.maxAlloc
    · exact getStrategy_range (P := (· ≤ 3)) hc.malloc0Strategy (fun k _ h => by omega) le_rfl
    · exact getStrategy_range (P := fun k => k = 2 ∨ k = 3) hc.new0Strategy
        (fun k h h' => by omega) (by decide)
  · constructor
    · change -2 ^ 31 ≤ getAlignment environ tls.alignment ∧
        getAlignment environ tls.alignment < 2 ^ 31 ∧ getAlignment environ tls.alignment ≠ 0
      unfold getAlignment
      split
      · next h =>
        have := getInt_range h
        split <;> omega
      · exact ht.alignment
    · change -1 ≤ getFill environ tls.fill ∧ getFill environ tls.fill ≤ 255
      unfold getFill
      split
      · split <;> omega
      · exact ht.fill

end Range

section Given

theorem Gives.getInt (h : Gives environ (name, n)) (h1 : -2 ^ 31 ≤ n) (h2 : n < 2 ^ 31) :
    getInt environ name = some n := by
  obtain ⟨v, hv, hd⟩ := h
  rw [Duma.getInt, hv, Option.map_some, hd.atoi h1 h2]

theorem Gives.getLong {old : ℤ} (h : Gives environ (name, n)) (hr : -2 ^ 63 ≤ n ∧ n < 2 ^ 63) :
    getLong environ name old = n := by
  obtain ⟨v, hv, hd⟩ := h
  rw [Duma.getLong, hv]
  exact hd.atol hr.1 hr.2

theorem Gives.getFlag {old : Bool} (h : Gives environ (name, flagValue b)) :
    getFlag environ name old = b := by
  rw [Duma.getFlag, h.getInt (by cases b <;> decide) (by cases b <;> decide)]
  cases b <;> rfl

theorem Gives.getStrategy {k old : ℕ} {least greatest : ℤ} (h : Gives environ (name, (k : ℤ)))
    (h1 : least ≤ k) (h2 : (k : ℤ) ≤ greatest) (h3 : greatest < 2 ^ 31) :
    getStrategy environ name least greatest old = k := by
  rw [Duma.getStrategy, h.getInt (by omega) (by omega)]
  simp [h1, h2]

theorem getenvvars_given {cfg' : Config} {tls' : Tls} (h0 : cfg.checkFreq = 0) (hc : cfg'.Ranged)
    (ht : tls'.Ranged) (h : ∀ p ∈ wanted cfg' tls', Gives environ p) :
    (getenvvars environ cfg tls).cfg = cfg' ∧ (getenvvars environ cfg tls).tls = tls' := by
  simp only [wanted, List.forall_mem_cons, List.not_mem_nil, false_imp_iff, implies_true,
    and_true] at h
  obtain ⟨hal, hpb, hfi, hrl, hpf, hma, hm0, hn0, hfe, hfa, hsf, hmo, hcf⟩ := h
  have h3 := hc.malloc0Strategy
  have h23 := hc.new0Strategy
  constructor
  · apply Config.ext
    · change getCheckFreq environ cfg.checkFreq = cfg'.checkFreq
      have := hc.checkFreq
      rw [getCheckFreq, hcf.getInt (by omega) this.2, h0]
      dsimp only
      split <;> omega
    · exact hrl.getFlag
    · change getSlackfill environ cfg.slackfill = cfg'.slackfill
      have := cfg'.slackfill.toNat_lt
      rw [getSlackfill, hsf.getInt (by omega) (by omega)]
      apply UInt8.toNat_inj.mp
      simp only [UInt8.ofInt, UInt8.toNat_ofNat']
      omega
    · exact hpf.getLong hc.protectFree
    · exact hma.getLong hc.maxAlloc
    · exact hm0.getStrategy (by omega) (by omega) (by decide)
    · exact hn0.getStrategy (by omega) (by omega) (by decide)
    · exact hfe.getFlag
    · exact hfa.getFlag
    · exact hmo.getFlag
  · apply Tls.ext
    · change getAlignment environ tls.alignment = tls'.alignment
      rw [getAlignment, hal.getInt ht.alignment.1 ht.alignment.2.1]
      exact if_neg ht.alignment.2.2
    · exact hpb.getFlag
    · change getFill environ tls.fill = tls'.fill
      have := ht.fill
      rw [getFill, hfi.getInt (by omega) (by omega)]
      dsimp only
      split <;> omega

def settingNames : List String :=
  ["DUMA_ALIGNMENT", "DUMA_PROTECT_BELOW", "DUMA_FILL", "DUMA_REPORT_ALL_LEAKS",
    "DUMA_PROTECT_FREE", "DUMA_MAX_ALLOC", "MALLOC_0_STRATEGY", "NEW_0_STRATEGY",
    "DUMA_MALLOC_FAILEXIT", "DUMA_FREE_ACCESS", "DUMA_SLACKFILL", "DUMA_MEMCPY_OVERLAP",
    "DUMA_CHECK_FREQ"]

theorem settingNames_spec : ∀ name ∈ settingNames, Print.chars name ≠ [] ∧
    (0 : UInt8) ∉ Print.chars name ∧ Print.chr '=' ∉ Print.chars name := by
  decide

theorem settingNames_nodup : (settingNames.map Print.chars).Nodup := by
  decide

theorem lookup_of_nodup {α β : Type} [BEq α] [LawfulBEq α] {l : List (α × β)} {a : α} {b : β}
    (hn : (l.map Prod.fst).Nodup) (hp : (a, b) ∈ l) : l.lookup a = some b := by
  induction l with
  | nil => cases hp
  | cons q l ih =>
    obtain ⟨c, d⟩ := q
    obtain ⟨hq, hn⟩ := List.nodup_cons.mp hn
    rcases List.mem_cons.mp hp with h | hl
    · obtain ⟨rfl, rfl⟩ := Prod.mk.inj h
      simp
    · have hne : a ≠ c := by
        rintro rfl
        exact hq (List.mem_map.mpr ⟨_, hl, rfl⟩)
      simp [List.lookup_cons, beq_false_of_ne hne, ih hn hl]

theorem gives_layout (h : environ.map CString.text =
      (wanted cfg tls).map fun p => assign (Print.chars p.1, decimal p.2)) :
    ∀ p ∈ wanted cfg tls, Gives environ p := by
  intro p hp
  have hname : p.1 ∈ settingNames := List.mem_map_of_mem (f := Prod.fst) hp
  obtain ⟨hn, h0, he⟩ := settingNames_spec p.1 hname
  have hnodup : (((wanted cfg tls).map fun p => (Print.chars p.1, decimal p.2)).map
      Prod.fst).Nodup := by
    have hmap : ((wanted cfg tls).map fun p => (Print.chars p.1, decimal p.2)).map Prod.fst =
        settingNames.map Print.chars := by
      simp [wanted, settingNames]
    rw [hmap]
    exact settingNames_nodup
  have hpairs : environ.map CString.text =
      ((wanted cfg tls).map fun p => (Print.chars p.1, decimal p.2)).map assign := by
    rw [h, List.map_map]
    rfl
  have hl : ((assignments environ).lookup (Print.chars p.1)).map CString.text = _ :=
    lookup_assignments hpairs fun q hq => by
      obtain ⟨q', hq', rfl⟩ := List.mem_map.mp hq
      exact (settingNames_spec q'.1 (List.mem_map_of_mem (f := Prod.fst) hq')).2.2
  rw [lookup_of_nodup hnodup (List.mem_map_of_mem hp), ← dumaGetenv_eq_lookup hn h0 he] at hl
  obtain ⟨v, hv, ht⟩ := Option.map_eq_some_iff.mp hl
  exact ⟨v, hv, ht ▸ denotes_decimal⟩

/-- Whatever an environment says, the settings stay in range. All settings in range are those of an
environment that gives their values, behind white space and in front of other text at most; one
that consists of the decimal numbers alone gives them. -/
theorem settings_exact (hc : cfg.Ranged) (ht : tls.Ranged) (h0 : cfg.checkFreq = 0) :
    (∀ environ : List CString, (getenvvars environ cfg tls).cfg.Ranged ∧
      (getenvvars environ cfg tls).tls.Ranged) ∧
    ∀ (cfg' : Config) (tls' : Tls) (environ : List CString), cfg'.Ranged → tls'.Ranged →
      ((∀ p ∈ wanted cfg' tls', Gives environ p) ∨ environ.map CString.text =
        (wanted cfg' tls').map fun p => assign (Print.chars p.1, decimal p.2)) →
      (getenvvars environ cfg tls).cfg = cfg' ∧ (getenvvars environ cfg tls).tls = tls' := by
  constructor
  · exact fun _ => getenvvars_ranged hc ht
  · rintro cfg' tls' environ hc' ht' (h | h)
    · exact getenvvars_given h0 hc' ht' h
    · exact getenvvars_given h0 hc' ht' (gives_layout h)

/-- 1 MB of freed memory is protected below each block, which is not filled. -/
theorem settings_exact_sample : ∃ environ : List CString,
    (getenvvars environ Config.initial ⟨16, false, 255⟩).cfg =
      { Config.initial with protectFree := 1024, checkFreq := 10 } ∧
    (getenvvars environ Config.initial ⟨16, false, 255⟩).tls = ⟨1, true, -1⟩ := by
  refine ⟨(wanted { Config.initial with protectFree := 1024, checkFreq := 10 } ⟨1, true, -1⟩).map
    fun p => ⟨0, (assign (Print.chars p.1, decimal p.2)).filter (· != 0), by simp⟩, ?_⟩
  refine (settings_exact ⟨by decide, by decide, by decide, by decide, by decide⟩
    ⟨by decide, by decide⟩ rfl).2 _ _ _ ⟨by decide, by decide, by decide, by decide, by decide⟩
    ⟨by decide, by decide⟩ (Or.inr ?_)
  rw [List.map_map]
  decide

end Given

end Duma

import Duma.Region.Step

/-! # Layout arithmetic

For a request without wrap-around the region has room for the block, its alignment and a dead
page, and the layout in both guard modes stays inside the region.
-/

namespace Duma

variable {env : Env} {al us n int x : ℕ}

/-- A power of two as alignment, and sizes whose sum does not wrap. -/
structure Sizes (env : Env) (al us : ℕ) : Prop where
  pow : al.isPowerOfTwo
  size_pos : 0 < us
  lt : us + al + 2 * env.pageSize < 2 ^ 64

/-- The memory that a request takes, in unbounded numbers. -/
def Env.need (env : Env) (al us : ℕ) : ℕ :=
  env.roundUp us + env.pageSize + (al - env.pageSize)

theorem Env.roundUp_lt (us : ℕ) : env.roundUp us < us + env.pageSize := by
  have hP := env.pageSize_pos
  have := Nat.div_mul_le_self (us + env.pageSize - 1) env.pageSize
  unfold Env.roundUp
  omega

namespace Sizes

variable (h : Sizes env al us)
include h

theorem al_pos : 0 < al := Nat.pos_of_isPowerOfTwo h.pow

theorem al_lt : al < 2 ^ 64 := by have := h.lt; omega

theorem dvd_al (hP : env.pageSize < al) : env.pageSize ∣ al :=
  Word.two_pow_dvd env.pageSize_pow h.pow hP.le

theorem al_dvd (hP : al ≤ env.pageSize) : al ∣ env.pageSize :=
  Word.two_pow_dvd h.pow env.pageSize_pow hP

theorem internalSizeFor_eq : internalSizeFor env al us = env.need al us := by
  have hP := env.pageSize_pos
  have hlt := h.lt
  have hus := h.size_pos
  have hr := env.roundUp_lt us
  have h1 : Word.add us env.pageSize = us + env.pageSize := Word.add_eq (by omega)
  have h2 : Word.sub (us + env.pageSize) 1 = us + env.pageSize - 1 :=
    Word.sub_eq (by omega) (by omega)
  have h3 : Word.clearLow (us + env.pageSize - 1) env.pageSize = env.roundUp us := by
    rw [Word.clearLow_eq (by omega) env.pageSize_word env.pageSize_pow, Env.roundUp]
  have h4 : Word.add (env.roundUp us) env.pageSize = env.roundUp us + env.pageSize :=
    Word.add_eq (by omega)
  simp only [internalSizeFor, h1, h2, h3, h4, Env.need]
  split
  · next hal =>
    rw [Word.sub_eq h.al_lt hal.le, Word.add_eq (by omega)]
  · omega

theorem dvd_need : env.pageSize ∣ env.need al us := by
  refine Nat.dvd_add (Nat.dvd_add (Env.dvd_roundUp us) dvd_rfl) ?_
  rcases Nat.lt_or_ge env.pageSize al with hal | hal
  · exact Nat.dvd_sub (h.dvd_al hal) dvd_rfl
  · rw [Nat.sub_eq_zero_of_le hal]
    exact Nat.dvd_zero _

omit h in
theorem need_pos : 0 < env.need al us := by
  have := env.pageSize_pos
  unfold Env.need
  omega

end Sizes

theorem Env.le_of_lt_add {a b : ℕ} (ha : env.pageSize ∣ a) (hb : env.pageSize ∣ b)
    (h : a < b + env.pageSize) : a ≤ b := by
  obtain ⟨c, rfl⟩ := ha
  obtain ⟨d, rfl⟩ := hb
  have : c < d + 1 := by
    rw [← Nat.mul_succ] at h
    exact Nat.lt_of_mul_lt_mul_left h
  exact Nat.mul_le_mul_left _ (by omega)

/-- The geometry of a block with the dead page above it, in any region that does not wrap: the first
byte of the dead page is less than an alignment and less than a page behind the block. -/
theorem Sizes.layoutAbove_eq (h : Sizes env al us) (hd : env.pageSize ∣ int)
    (hle : int + env.need al us < 2 ^ 64) :
    ∃ u q, layoutAbove env int (env.need al us) al us = ⟨u, q⟩ ∧ al ∣ u ∧ int ≤ u ∧
      env.pageSize ∣ q ∧ u + us ≤ q ∧ q < u + us + env.pageSize ∧ q < u + us + al ∧
      q + env.pageSize ≤ int + env.need al us := by
  have hP := env.pageSize_pos
  have hPl := env.pageSize_lt
  have hus := h.size_pos
  have hru := env.le_roundUp us
  have hal := h.al_pos
  have hn : env.need al us = env.roundUp us + env.pageSize + (al - env.pageSize) := rfl
  set X := int + env.need al us - env.pageSize - us with hX
  have h1 : Word.add int (env.need al us) = int + env.need al us := Word.add_eq (by omega)
  have h2 : Word.sub (int + env.need al us) env.pageSize = int + env.need al us - env.pageSize :=
    Word.sub_eq (by omega) (by omega)
  have h3 : Word.sub (int + env.need al us - env.pageSize) us = X :=
    Word.sub_eq (by omega) (by omega)
  have hXlt : X < 2 ^ 64 := by omega
  have hu1 := Word.clearLow_le hXlt h.al_lt h.pow
  have hu2 := Word.lt_clearLow_add hXlt h.al_lt h.pow
  have hu3 := Word.dvd_clearLow hXlt h.al_lt h.pow
  set u := Word.clearLow X al with hu
  have hint : int ≤ u := by
    rcases Nat.lt_or_ge env.pageSize al with hP' | hP'
    · exact Env.le_of_lt_add hd ((h.dvd_al hP').trans hu3) (by omega)
    · exact Word.le_clearLow hXlt h.al_lt h.pow ((h.al_dvd hP').trans hd) (by omega)
  have h4 : Word.add u us = u + us := Word.add_eq (by omega)
  have h5 : Word.add (u + us) env.pageSize = u + us + env.pageSize := Word.add_eq (by omega)
  have h6 : Word.sub (u + us + env.pageSize) 1 = u + us + env.pageSize - 1 :=
    Word.sub_eq (by omega) (by omega)
  have hYlt : u + us + env.pageSize - 1 < 2 ^ 64 := by omega
  have hq1 := Word.clearLow_le hYlt env.pageSize_word env.pageSize_pow
  have hq2 := Word.lt_clearLow_add hYlt env.pageSize_word env.pageSize_pow
  have hq3 := Word.dvd_clearLow hYlt env.pageSize_word env.pageSize_pow
  set q := Word.clearLow (u + us + env.pageSize - 1) env.pageSize with hq
  have hend : q ≤ int + env.need al us - env.pageSize := by
    refine Env.le_of_lt_add hq3 (Nat.dvd_sub (Nat.dvd_add hd h.dvd_need) dvd_rfl) ?_
    omega
  refine ⟨u, q, ?_, hu3, hint, hq3, by omega, by omega, by omega, by omega⟩
  simp only [layoutAbove, h1, h2, h3, ← hu, h4, h5, h6, ← hq]

/-- What both guard modes need of the region they place a block in. -/
structure Fits (env : Env) (al us int : ℕ) : Prop extends Sizes env al us where
  pos : 0 < int
  dvd : env.pageSize ∣ int
  le : int + env.need al us ≤ env.taskSize

namespace Fits

variable (h : Fits env al us int)
include h

theorem al_dvd_int (hP : al ≤ env.pageSize) : al ∣ int := (h.al_dvd hP).trans h.dvd

theorem above : ∃ u q, layoutAbove env int (env.need al us) al us = ⟨u, q⟩ ∧ al ∣ u ∧ int ≤ u ∧
    env.pageSize ∣ q ∧ u + us ≤ q ∧ q < u + us + env.pageSize ∧
    q + env.pageSize ≤ int + env.need al us := by
  have hle := h.le
  have ht := env.taskSize_le
  obtain ⟨u, q, he, h1, h2, h3, h4, h5, -, h6⟩ := h.layoutAbove_eq h.dvd (by omega)
  exact ⟨u, q, he, h1, h2, h3, h4, h5, h6⟩

theorem below : ∃ u q, layoutBelow env int al = ⟨u, q⟩ ∧ al ∣ u ∧ env.pageSize ∣ u ∧
    q + env.pageSize = u ∧ int ≤ q ∧ u + us ≤ int + env.need al us ∧
    u ≤ int + env.pageSize + (al - env.pageSize) ∧
    (al ≤ env.pageSize ∨ al ∣ int + env.pageSize → u = int + env.pageSize) ∧
    (u = int + env.pageSize → al ≤ env.pageSize ∨ al ∣ int + env.pageSize) := by
  have hP := env.pageSize_pos
  have hPl := env.pageSize_lt
  have ht := env.taskSize_le
  have hle := h.le
  have hru := env.le_roundUp us
  have hal := h.al_pos
  have hn : env.need al us = env.roundUp us + env.pageSize + (al - env.pageSize) := rfl
  have h1 : Word.add int env.pageSize = int + env.pageSize := Word.add_eq (by omega)
  have h2 : Word.add (int + env.pageSize) al = int + env.pageSize + al := Word.add_eq (by omega)
  have h3 : Word.sub (int + env.pageSize + al) 1 = int + env.pageSize + al - 1 :=
    Word.sub_eq (by omega) (by omega)
  have hXlt : int + env.pageSize + al - 1 < 2 ^ 64 := by omega
  have hu1 := Word.clearLow_le hXlt h.al_lt h.pow
  have hu2 := Word.lt_clearLow_add hXlt h.al_lt h.pow
  have hu3 := Word.dvd_clearLow hXlt h.al_lt h.pow
  have hu4 := Word.le_clearLow (y := int + env.pageSize) hXlt h.al_lt h.pow
  set u := Word.clearLow (int + env.pageSize + al - 1) al with hu
  have hint : int + env.pageSize ≤ u := by omega
  have hexact : al ∣ int + env.pageSize → u = int + env.pageSize := fun hd => by
    obtain ⟨c, hc⟩ := hu3
    obtain ⟨d, hd⟩ := hd
    have hcd : c < d + 1 := by
      refine Nat.lt_of_mul_lt_mul_left (a := al) ?_
      rw [Nat.mul_succ]
      omega
    have := Nat.mul_le_mul_left al (Nat.le_of_lt_succ hcd)
    omega
  have hsmall : al ≤ env.pageSize → u = int + env.pageSize := fun hP' =>
    hexact (Nat.dvd_add (h.al_dvd_int hP') (h.al_dvd hP'))
  have hpu : env.pageSize ∣ u := by
    rcases Nat.lt_or_ge env.pageSize al with hP' | hP'
    · exact (h.dvd_al hP').trans hu3
    · rw [hsmall hP']
      exact Nat.dvd_add h.dvd dvd_rfl
  have hmax : u ≤ int + env.pageSize + (al - env.pageSize) := by
    rcases Nat.lt_or_ge env.pageSize al with hP' | hP'
    · have : u ≤ int + al := Env.le_of_lt_add hpu (Nat.dvd_add h.dvd (h.dvd_al hP')) (by omega)
      omega
    · rw [hsmall hP']
      omega
  have hq : Word.clearLow u env.pageSize = u := by
    rw [Word.clearLow_eq (by omega) env.pageSize_word env.pageSize_pow,
      Nat.div_mul_cancel hpu]
  have hq' : Word.sub u env.pageSize = u - env.pageSize := Word.sub_eq (by omega) (by omega)
  refine ⟨u, u - env.pageSize, ?_, hu3, hpu, by omega, by omega, by omega, hmax, ?_, fun he => ?_⟩
  · simp only [layoutBelow, h1, h2, h3, ← hu, hq, hq']
  · rintro (hP' | hd)
    exacts [hsmall hP', hexact hd]
  · exact Or.inr (he ▸ hu3)

end Fits

end Duma

import Mathlib.Data.List.TakeWhile
import Duma.Model.Environ

/-! # Looking up variables

The environment is a finite map: a string assigns what follows its first `=` to what precedes it,
and the first assignment to a name counts. `duma_getenv` looks names up in this map.
-/

namespace Duma

variable {environ : List CString} {varname : List UInt8} {v u : CString} {fuel idx k : ℕ}

/-- What a string of the environment assigns, and to which name. -/
def CString.assignment (v : CString) : Option (List UInt8 × CString) :=
  if Print.chr '=' ∈ v.text then
    let name := v.text.takeWhile (· != Print.chr '=')
    some (name, v.advance (name.length + 1))
  else none

/-- The variables of an environment, in order. -/
def assignments (environ : List CString) : List (List UInt8 × CString) :=
  environ.filterMap CString.assignment

section Match

theorem CString.read_eq_iff {c : UInt8} (hc : c ≠ 0) : v.read k = c ↔ v.text[k]? = some c := by
  rw [CString.read, List.getD_eq_getElem?_getD]
  cases v.text[k]? with
  | none => simp [hc.symm]
  | some d => simp

theorem getD_ne_zero_iff (h0 : (0 : UInt8) ∉ varname) :
    varname.getD k 0 ≠ 0 ↔ k < varname.length := by
  rw [List.getD_eq_getElem?_getD]
  rcases Nat.lt_or_ge k varname.length with hk | hk
  · simp only [List.getElem?_eq_getElem hk, Option.getD_some, hk, iff_true]
    exact fun h => h0 (h ▸ List.getElem_mem hk)
  · simp [hk]

/-- The loop ends at the first index at which the strings differ or the name ends. -/
theorem matchName_spec (varname : List UInt8) (v : CString) (fuel idx : ℕ) :
    idx ≤ matchName varname v fuel idx ∧ matchName varname v fuel idx ≤ idx + fuel ∧
    (∀ k, idx ≤ k → k < matchName varname v fuel idx →
      varname.getD k 0 ≠ 0 ∧ v.read k = varname.getD k 0) ∧
    (matchName varname v fuel idx < idx + fuel →
      ¬ (varname.getD (matchName varname v fuel idx) 0 ≠ 0 ∧
        v.read (matchName varname v fuel idx) =
          varname.getD (matchName varname v fuel idx) 0)) := by
  induction fuel generalizing idx with
  | zero => exact ⟨le_rfl, le_rfl, fun k h1 h2 => absurd h2 (not_lt.mpr h1), fun h => by
      simp [matchName] at h⟩
  | succ fuel ih =>
    rw [matchName]
    split
    · next h =>
      obtain ⟨h1, h2, h3, h4⟩ := ih (idx + 1)
      refine ⟨by omega, by omega, fun k hk hk' => ?_, fun hlt => h4 (by omega)⟩
      rcases hk.eq_or_lt with rfl | hk
      exacts [h, h3 k hk hk']
    · next h => exact ⟨le_rfl, by omega, fun k h1 h2 => absurd h2 (not_lt.mpr h1), fun _ => h⟩

theorem matchName_hits_iff (hn : varname ≠ []) (h0 : (0 : UInt8) ∉ varname) :
    (0 < matchName varname v varname.length 0 ∧
      varname.getD (matchName varname v varname.length 0) 0 = 0 ∧
      v.read (matchName varname v varname.length 0) = Print.chr '=') ↔
    varname ++ [Print.chr '='] <+: v.text := by
  obtain ⟨-, hle, hall, hend⟩ := matchName_spec varname v varname.length 0
  set j := matchName varname v varname.length 0
  have heq : Print.chr '=' ≠ 0 := by decide
  have hlast : (varname ++ [Print.chr '='])[varname.length]? = some (Print.chr '=') := by simp
  rw [List.prefix_iff_getElem?]
  constructor
  · rintro ⟨-, hj, hr⟩ k hk
    have hjl : j = varname.length := by
      by_contra hne
      exact (getD_ne_zero_iff h0).mpr (by omega) hj
    rw [List.length_append, List.length_singleton] at hk
    rcases Nat.lt_or_ge k varname.length with hkl | hkl
    · obtain ⟨h1, h2⟩ := hall k k.zero_le (by omega)
      rw [List.getElem_append_left hkl]
      rw [CString.read_eq_iff h1, List.getD_eq_getElem _ _ hkl] at h2
      exact h2
    · obtain rfl : k = varname.length := by omega
      rw [hjl, CString.read_eq_iff heq] at hr
      rw [hr, List.getElem_append_right le_rfl]
      simp
  · intro h
    have hread : ∀ k, (hk : k < varname.length) → v.read k = varname.getD k 0 := fun k hk => by
      have hk' := h k (by rw [List.length_append]; omega)
      rw [List.getElem_append_left hk] at hk'
      rw [CString.read_eq_iff ((getD_ne_zero_iff h0).mpr hk), List.getD_eq_getElem _ _ hk]
      exact hk'
    have hjl : j = varname.length := by
      by_contra hne
      have hlt : j < varname.length := by omega
      exact hend (by omega) ⟨(getD_ne_zero_iff h0).mpr hlt, hread j hlt⟩
    rw [hjl]
    refine ⟨List.length_pos_iff.mpr hn, by simp, (CString.read_eq_iff heq).mpr ?_⟩
    have hv := h varname.length (by simp)
    rw [hv, List.getElem_append_right le_rfl]
    simp

theorem matchName_of_prefix (h0 : (0 : UInt8) ∉ varname) (hn : varname ≠ [])
    (h : varname ++ [Print.chr '='] <+: v.text) :
    matchName varname v varname.length 0 = varname.length := by
  obtain ⟨-, hle, -⟩ := matchName_spec varname v varname.length 0
  obtain ⟨-, hj, -⟩ := (matchName_hits_iff hn h0).mpr h
  by_contra hne
  exact (getD_ne_zero_iff h0).mpr (by omega) hj

end Match

section Lookup

def assign (p : List UInt8 × List UInt8) : List UInt8 := p.1 ++ Print.chr '=' :: p.2

theorem CString.assignment_of_text {value : List UInt8} (he : Print.chr '=' ∉ varname)
    (h : v.text = assign (varname, value)) :
    v.assignment = some (varname, v.advance (varname.length + 1)) := by
  have hname : v.text.takeWhile (· != Print.chr '=') = varname := by
    rw [h, assign, List.takeWhile_append_of_pos fun c hc => by
      simpa using fun h' : c = Print.chr '=' => he (h' ▸ hc)]
    simp
  rw [CString.assignment, if_pos (by rw [h]; simp [assign]), hname]

theorem CString.prefix_of_assignment (h : v.assignment = some (varname, u)) :
    varname ++ [Print.chr '='] <+: v.text := by
  unfold CString.assignment at h
  split at h
  · next hin =>
    obtain ⟨rfl, -⟩ := Prod.mk.inj (Option.some.inj h)
    have hdrop : v.text.dropWhile (· != Print.chr '=') ≠ [] := fun hnil => by
      have := List.dropWhile_eq_nil_iff.mp hnil _ hin
      simp at this
    have hhead := List.head_dropWhile_not (· != Print.chr '=') hdrop
    have hc : (v.text.dropWhile (· != Print.chr '=')).head hdrop = Print.chr '=' := by
      simpa using hhead
    have hcons := List.cons_head_tail hdrop
    rw [hc] at hcons
    refine ⟨(v.text.dropWhile (· != Print.chr '=')).tail, ?_⟩
    rw [List.append_assoc, List.singleton_append, hcons, List.takeWhile_append_dropWhile]
  · cases h

theorem assignments_cons (v : CString) (rest : List CString) :
    assignments (v :: rest) = v.assignment.toList ++ assignments rest := by
  unfold assignments
  cases h : v.assignment <;> simp [h]

section Name

variable (hn : varname ≠ []) (h0 : (0 : UInt8) ∉ varname) (he : Print.chr '=' ∉ varname)
include hn h0 he

theorem searchEnviron_eq_lookup :
    searchEnviron varname environ = (assignments environ).lookup varname := by
  induction environ with
  | nil => rfl
  | cons v rest ih =>
    rw [searchEnviron, assignments_cons]
    by_cases h : varname ++ [Print.chr '='] <+: v.text
    · obtain ⟨value, hv⟩ := h
      have htext : v.text = assign (varname, value) := by rw [← hv, List.append_assoc]; rfl
      rw [if_pos ((matchName_hits_iff hn h0).mpr ⟨value, hv⟩),
        matchName_of_prefix h0 hn ⟨value, hv⟩, CString.assignment_of_text he htext]
      simp
    · rw [if_neg fun h' => h ((matchName_hits_iff hn h0).mp h'), ih]
      cases ha : v.assignment with
      | none => rfl
      | some p =>
        obtain ⟨name, w⟩ := p
        have hne : varname ≠ name := by
          rintro rfl
          exact h (CString.prefix_of_assignment ha)
        simp [List.lookup_cons, beq_false_of_ne hne]

theorem dumaGetenv_eq_lookup :
    dumaGetenv varname environ = (assignments environ).lookup varname := by
  rw [dumaGetenv, if_neg ((getD_ne_zero_iff h0).mpr (List.length_pos_iff.mpr hn))]
  exact searchEnviron_eq_lookup hn h0 he

end Name

theorem lookup_assignments {pairs : List (List UInt8 × List UInt8)}
    (h : environ.map CString.text = pairs.map assign) (hp : ∀ p ∈ pairs, Print.chr '=' ∉ p.1) :
    ((assignments environ).lookup varname).map CString.text = pairs.lookup varname := by
  induction pairs generalizing environ with
  | nil =>
    rw [List.map_nil, List.map_eq_nil_iff] at h
    subst h
    rfl
  | cons p rest ih =>
    obtain ⟨name, value⟩ := p
    obtain ⟨v, vs, rfl⟩ : ∃ v vs, environ = v :: vs := by
      cases environ with
      | nil => cases h
      | cons v vs => exact ⟨v, vs, rfl⟩
    obtain ⟨hv, hvs⟩ := List.cons.inj h
    rw [assignments_cons, CString.assignment_of_text (hp _ List.mem_cons_self) hv]
    have hdrop : (v.advance (name.length + 1)).text = value := by
      simp [CString.advance, hv, assign]
    have hrest := ih hvs fun q hq => hp q (List.mem_cons_of_mem _ hq)
    by_cases hname : varname = name
    · simp [hname, hdrop]
    · simp [List.lookup_cons, beq_false_of_ne hname, hrest]

/-- `duma_getenv` looks a name up in the environment, whatever strings this consists of, and the
empty name nowhere. Where the environment was laid out from names and values, the value of the first
such name is found. -/
theorem getenv_exact (h0 : (0 : UInt8) ∉ varname) (he : Print.chr '=' ∉ varname) :
    (dumaGetenv varname environ =
      if varname = [] then none else (assignments environ).lookup varname) ∧
    ∀ pairs : List (List UInt8 × List UInt8), environ.map CString.text = pairs.map assign →
      (∀ p ∈ pairs, Print.chr '=' ∉ p.1) → varname ≠ [] →
        (dumaGetenv varname environ).map CString.text = pairs.lookup varname := by
  constructor
  · split
    · next hn => rw [hn]; rfl
    · next hn => exact dumaGetenv_eq_lookup hn h0 he
  · intro pairs h hp hn
    rw [dumaGetenv_eq_lookup hn h0 he]
    exact lookup_assignments h hp

theorem getenv_exact_sample : (dumaGetenv (Print.chars "DUMA_FILL")
    [⟨4096, Print.chars "HOME=/", by decide⟩, ⟨4103, Print.chars "DUMA_FILL=7", by decide⟩]).map
      CString.text = some (Print.chars "7") :=
  ((getenv_exact (by decide) (by decide)).2 [(Print.chars "HOME", Print.chars "/"),
    (Print.chars "DUMA_FILL", Print.chars "7")] (by decide) (by decide) (by decide)).trans
      (by decide)

end Lookup

end Duma

import Mathlib.Data.List.TakeWhile

/-! # Scanning

A scanner that takes elements as long as they have a property takes just a word of such elements if
the text goes on with none.
-/

namespace Scan

variable {α : Type*} {p : α → Bool} {word rest : List α}

theorem takeWhile_append (hw : ∀ c ∈ word, p c = true) (hr : ∀ c ∈ rest.head?, p c = false) :
    (word ++ rest).takeWhile p = word := by
  rw [List.takeWhile_append_of_pos hw]
  cases rest with
  | nil => simp
  | cons c rest => simp [hr c rfl]

theorem dropWhile_append (hw : ∀ c ∈ word, p c = true) (hr : ∀ c ∈ rest.head?, p c = false) :
    (word ++ rest).dropWhile p = rest := by
  rw [List.dropWhile_append_of_pos hw]
  cases rest with
  | nil => rfl
  | cons c rest => simp [hr c rfl]

theorem head?_dropWhile {text : List α} : ∀ c ∈ (text.dropWhile p).head?, p c = false := by
  intro c hc
  obtain ⟨rest, h⟩ : ∃ rest, text.dropWhile p = c :: rest := by
    cases hd : text.dropWhile p with
    | nil => rw [hd] at hc; cases hc
    | cons d rest => rw [hd] at hc; cases hc; exact ⟨rest, rfl⟩
  have hne : text.dropWhile p ≠ [] := by rw [h]; exact List.cons_ne_nil _ _
  have hhead := List.head_dropWhile_not p hne
  simpa only [h, List.head_cons] using hhead

end Scan

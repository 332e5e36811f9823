/-!
# Cutting texts at separators

`split` cuts a text, of characters or of bytes, at every separator, `cutLast?` at the last one
only. The pieces, put together again with the separators between them, are the text, and what
stands after the last separator has none.
-/

namespace TestCoverage.Text

/-- The pieces between the separators, in order. There is always at least one piece. -/
def split {α : Type} (isSeparator : α → Bool) : List α → List (List α)
  | [] => [[]]
  | c :: rest =>
    if isSeparator c then [] :: split isSeparator rest
    else
      match split isSeparator rest with
      | [] => [[c]]
      | piece :: others => (c :: piece) :: others

/-- What stands before and after the last separator, if there is one. -/
def cutLast? (isSeparator : Char → Bool) : List Char → Option (List Char × List Char)
  | [] => none
  | c :: rest =>
    match cutLast? isSeparator rest with
    | some (before, after) => some (c :: before, after)
    | none => if isSeparator c then some ([], rest) else none

/-- What follows the last separator: the whole text if there is none. -/
def afterLast (isSeparator : Char → Bool) (text : List Char) : List Char :=
  match cutLast? isSeparator text with
  | some (_, after) => after
  | none => text

theorem split_ne_nil {α : Type} (isSeparator : α → Bool) (text : List α) :
    split isSeparator text ≠ [] := by
  cases text with
  | nil => simp [split]
  | cons c rest =>
    rw [split]
    split
    · simp
    · split <;> simp

/-- The text is what stands before its last separator, that separator, and what follows. -/
theorem eq_of_cutLast? {isSeparator : Char → Bool} {text before after : List Char}
    (h : cutLast? isSeparator text = some (before, after)) :
    ∃ c, isSeparator c = true ∧ text = before ++ c :: after := by
  induction text generalizing before with
  | nil => simp [cutLast?] at h
  | cons c rest ih =>
    rw [cutLast?] at h
    split at h
    · next b a hrest =>
      obtain ⟨rfl, rfl⟩ : c :: b = before ∧ a = after := by simpa using h
      obtain ⟨d, hd, rfl⟩ := ih hrest
      exact ⟨d, hd, rfl⟩
    · split at h
      · next hc =>
        obtain ⟨rfl, rfl⟩ : [] = before ∧ rest = after := by simpa using h
        exact ⟨c, hc, rfl⟩
      · simp at h

/-- A text that cannot be cut has no separator. -/
theorem not_isSeparator_of_cutLast?_eq_none {isSeparator : Char → Bool} {text : List Char}
    (h : cutLast? isSeparator text = none) : ∀ c ∈ text, isSeparator c = false := by
  induction text with
  | nil => simp
  | cons c rest ih =>
    rw [cutLast?] at h
    split at h
    · simp at h
    · next hrest =>
      split at h
      · simp at h
      · next hc =>
        intro d hd
        rcases List.mem_cons.mp hd with rfl | hd
        · exact Bool.eq_false_iff.mpr hc
        · exact ih hrest d hd

/-- No separator follows the last one. -/
theorem not_isSeparator_of_cutLast? {isSeparator : Char → Bool} {text before after : List Char}
    (h : cutLast? isSeparator text = some (before, after)) :
    ∀ c ∈ after, isSeparator c = false := by
  induction text generalizing before with
  | nil => simp [cutLast?] at h
  | cons c rest ih =>
    rw [cutLast?] at h
    split at h
    · next b a hrest =>
      obtain ⟨rfl, rfl⟩ : c :: b = before ∧ a = after := by simpa using h
      exact ih hrest
    · next hrest =>
      split at h
      · obtain ⟨rfl, rfl⟩ : [] = before ∧ rest = after := by simpa using h
        exact not_isSeparator_of_cutLast?_eq_none hrest
      · simp at h

end TestCoverage.Text

import Mathlib
import TestCoverage.Proofs.Location.Lines

/-!
# Remarks in written rules

Rules are read line by line, so a line that says nothing may be put between any two lines
(`Rules.read_of_inserted`). A line with the sign of a remark says nothing if something follows
the sign. If only blanks follow they are dropped with the one that belongs to the sign, and the
line is the pattern `#` (`RuleLine.read_marker`).

* `Text.Inserted.exists_lines`: how the lines of a text with one more line are divided.
* `Rules.wants_inserted_iff`: which lines with the sign make no difference anywhere, and what
  difference the others make.
-/

namespace TestCoverage

namespace Text

/-! ## Lines -/

/-- What follows the text begins a line. -/
def EndsLine (text : List Char) : Prop := text = [] ∨ text.getLast? = some '\n'

/-- A line is put into a text: in front of a line or at the end of the text. -/
inductive Inserted (line : List Char) : List Char → List Char → Prop where
  | inFront (before after : List Char) (h : EndsLine before) :
      Inserted line (before ++ after) (before ++ line ++ '\n' :: after)
  /-- The new line is the last one, and no line feed ends it. -/
  | atEnd (text : List Char) (h : EndsLine text) : Inserted line text (text ++ line)
  /-- The last line had no line feed at its end. -/
  | below (text : List Char) (h : ¬EndsLine text) (ending : List Char)
      (hending : ending = [] ∨ ending = ['\n']) :
      Inserted line text (text ++ '\n' :: line ++ ending)

theorem lines_cons {c : Char} (h : c ≠ '\n') (rest : List Char) :
    lines (c :: rest) = (c :: (lines rest).headD []) :: (lines rest).tail := by
  rw [lines]
  · cases lines rest <;> rfl
  · exact fun hc => h hc

theorem lines_append_lineFeed {line : List Char} (h : '\n' ∉ line) (rest : List Char) :
    lines (line ++ '\n' :: rest) = line :: lines rest := by
  induction line with
  | nil => rfl
  | cons c others ih =>
    rw [List.mem_cons, not_or] at h
    obtain ⟨hc, hothers⟩ := h
    rw [List.cons_append, lines_cons (Ne.symm hc), ih hothers, List.headD_cons, List.tail_cons]

theorem lines_of_ne_nil {line : List Char} (h : '\n' ∉ line) (hne : line ≠ []) :
    lines line = [line] := by
  induction line with
  | nil => exact absurd rfl hne
  | cons c others ih =>
    rw [List.mem_cons, not_or] at h
    obtain ⟨hc, hothers⟩ := h
    rw [lines_cons (Ne.symm hc)]
    cases others with
    | nil => rfl
    | cons d more => rw [ih hothers (by simp), List.headD_cons, List.tail_cons]

theorem lines_ne_nil {text : List Char} (h : text ≠ []) : lines text ≠ [] := by
  obtain ⟨c, rest, rfl⟩ := List.exists_cons_of_ne_nil h
  by_cases hc : c = '\n'
  · subst hc
    simp [lines]
  · simp [lines_cons hc]

/-- Texts that end a line are cut into lines by themselves. -/
theorem lines_append {before : List Char} (h : EndsLine before) (after : List Char) :
    lines (before ++ after) = lines before ++ lines after := by
  induction before with
  | nil => rfl
  | cons c rest ih =>
    by_cases hrest : rest = []
    · subst hrest
      obtain rfl : c = '\n' := by simpa [EndsLine] using h
      rfl
    · have hends : EndsLine rest := by
        rcases h with h | h
        · cases h
        · rw [List.getLast?_cons_of_ne_nil hrest] at h
          exact .inr h
      have ih := ih hends
      by_cases hc : c = '\n'
      · subst hc
        rw [List.cons_append, lines, ih, lines, List.cons_append]
      · obtain ⟨line, others, hlines⟩ := List.exists_cons_of_ne_nil (lines_ne_nil hrest)
        rw [List.cons_append, lines_cons hc, ih, lines_cons hc, hlines]
        rfl

theorem lines_append_ending {text : List Char} (h : ¬EndsLine text) :
    lines (text ++ ['\n']) = lines text := by
  induction text with
  | nil => exact absurd (.inl rfl) h
  | cons c rest ih =>
    by_cases hrest : rest = []
    · subst hrest
      have hc : c ≠ '\n' := fun hc => h (.inr (by simp [hc]))
      rw [List.cons_append, lines_cons hc, lines_cons hc]
      rfl
    · have hends : ¬EndsLine rest := by
        rintro (hnil | hlast)
        · exact hrest hnil
        · exact h (.inr (by rw [List.getLast?_cons_of_ne_nil hrest, hlast]))
      by_cases hc : c = '\n'
      · subst hc
        rw [List.cons_append, lines, lines, ih hends]
      · rw [List.cons_append, lines_cons hc, lines_cons hc, ih hends]

/-- A line that is put into a text comes between two of its lines. -/
theorem Inserted.exists_lines {line text new : List Char} (h : Inserted line text new)
    (hline : '\n' ∉ line) (hne : line ≠ []) :
    ∃ before after, lines text = before ++ after ∧ lines new = before ++ line :: after := by
  cases h with
  | inFront before after hends =>
    refine ⟨lines before, lines after, lines_append hends after, ?_⟩
    rw [List.append_assoc, lines_append hends, lines_append_lineFeed hline]
  | atEnd _ hends =>
    refine ⟨lines text, [], (List.append_nil _).symm, ?_⟩
    rw [lines_append hends, lines_of_ne_nil hline hne]
  | below _ hends ending hending =>
    have hended : EndsLine (text ++ ['\n']) := .inr (by simp)
    have hlast : lines (line ++ ending) = [line] := by
      rcases hending with rfl | rfl
      · rw [List.append_nil, lines_of_ne_nil hline hne]
      · rw [lines_append_lineFeed hline]
        rfl
    refine ⟨lines text, [], (List.append_nil _).symm, ?_⟩
    have hnew : text ++ '\n' :: line ++ ending = text ++ ['\n'] ++ (line ++ ending) := by simp
    rw [hnew, lines_append hended, lines_append_ending hends, hlast]

/-! ## Trimming -/

/-- Blanks at the end of what follows are dropped, and no more if something else is there. -/
theorem trimRight_append (text : List Char) {more : List Char}
    (h : ∃ c ∈ more, isBlank c = false) : trimRight (text ++ more) = text ++ trimRight more := by
  have hne : more.reverse.dropWhile isBlank ≠ [] := by
    intro hnil
    rw [List.dropWhile_eq_nil_iff] at hnil
    obtain ⟨c, hmem, hblank⟩ := h
    rw [hnil c (List.mem_reverse.mpr hmem)] at hblank
    cases hblank
  unfold trimRight
  rw [List.reverse_append, List.dropWhile_append, if_neg (by simpa using hne),
    List.reverse_append, List.reverse_reverse]

theorem trimRight_append_blanks (text : List Char) {more : List Char}
    (h : ∀ c ∈ more, isBlank c = true) : trimRight (text ++ more) = trimRight text := by
  have hnil : more.reverse.dropWhile isBlank = [] := by
    rw [List.dropWhile_eq_nil_iff]
    exact fun c hc => h c (List.mem_reverse.mp hc)
  unfold trimRight
  rw [List.reverse_append, List.dropWhile_append, if_pos (by rw [hnil]; rfl)]

end Text

/-! ## Reading -/

/-- A line with the sign of a remark is a remark only if something follows the sign. -/
theorem RuleLine.read_marker {line comment : List Char}
    (h : line.dropWhile Text.isBlank = '#' :: ' ' :: comment) :
    RuleLine.read line =
      if ∃ c ∈ comment, Text.isBlank c = false then .remark
      else .including (Pattern.ofText ['#']) := by
  have htrim : Text.trim line = Text.trimRight (['#', ' '] ++ comment) := by
    rw [Text.trim, h]
    rfl
  rw [read, htrim]
  by_cases hmore : ∃ c ∈ comment, Text.isBlank c = false
  · rw [if_pos hmore, Text.trimRight_append _ hmore]
    rfl
  · have hblanks : ∀ c ∈ comment, Text.isBlank c = true := by simpa using hmore
    rw [if_neg hmore, Text.trimRight_append_blanks _ hblanks]
    rfl

namespace Rules

theorem read_of_lines {text new : String} {before after : List (List Char)} {line : List Char}
    (htext : Text.lines text.toList = before ++ after)
    (hnew : Text.lines new.toList = before ++ line :: after)
    (hline : RuleLine.read line = .remark) : read new = read text := by
  unfold read
  rw [hnew, htext, List.foldl_append, List.foldl_append, List.foldl_cons, hline, addLine]

theorem read_of_inserted {line : List Char} {text new : String}
    (h : Text.Inserted line text.toList new.toList) (hfeed : '\n' ∉ line) (hne : line ≠ [])
    (hline : RuleLine.read line = .remark) : read new = read text := by
  obtain ⟨before, after, htext, hnew⟩ := h.exists_lines hfeed hne
  exact read_of_lines htext hnew hline

/-- A line with a pattern to include adds it, wherever the line stands. -/
theorem alike_of_inserted {line : List Char} {pattern : Pattern} {text new : String}
    (h : Text.Inserted line text.toList new.toList) (hfeed : '\n' ∉ line) (hne : line ≠ [])
    (hline : RuleLine.read line = .including pattern) :
    (read new).Alike ((read text).extend ⟨[pattern], []⟩) := by
  obtain ⟨before, after, htext, hnew⟩ := h.exists_lines hfeed hne
  rw [read_eq, read_eq, hnew, htext, List.map_append, List.map_cons, hline, List.map_append]
  apply alike_of_mem_iff
  · intro other
    simp [ofLines, extend, RuleLine.included?, or_left_comm, or_comm]
  · intro other
    simp [ofLines, extend, RuleLine.excluded?]

/-- A line with the sign of a remark makes no difference to any location, wherever it is put into
whatever rules, if and only if something that is not blank follows the sign. Otherwise it adds the
pattern `#` to those that include. -/
theorem wants_inserted_iff {line comment : List Char} (hfeed : '\n' ∉ line)
    (hmarker : line.dropWhile Text.isBlank = '#' :: ' ' :: comment) :
    ((∀ text new : String, Text.Inserted line text.toList new.toList →
        ∀ location, (read new).wants location = (read text).wants location) ↔
      ∃ c ∈ comment, Text.isBlank c = false) ∧
    ((∀ c ∈ comment, Text.isBlank c = true) →
      ∀ text new : String, Text.Inserted line text.toList new.toList → ∀ location,
        (read new).wants location = ((read text).extend (ofTexts ["#"] [])).wants location) := by
  have hne : line ≠ [] := by
    rintro rfl
    cases hmarker
  have hread := RuleLine.read_marker hmarker
  have hadds (hblanks : ¬∃ c ∈ comment, Text.isBlank c = false) (text new : String)
      (hinserted : Text.Inserted line text.toList new.toList) :
      (read new).Alike ((read text).extend (ofTexts ["#"] [])) := by
    rw [if_neg hblanks] at hread
    exact alike_of_inserted hinserted hfeed hne hread
  refine ⟨⟨?_, ?_⟩, fun hblanks => hadds (by simpa using hblanks)⟩
  · intro h
    by_contra hblanks
    -- alone in a text the line keeps out what is not called `#`
    have hinserted : Text.Inserted line "".toList (String.ofList line).toList := by
      rw [@String.toList_ofList line]
      exact .atEnd [] (.inl rfl)
    have halone := (h "" _ hinserted "").symm.trans (hadds hblanks "" _ hinserted "")
    revert halone
    decide
  · intro hmore text new hinserted location
    rw [if_pos hmore] at hread
    rw [read_of_inserted hinserted hfeed hne hread]

/-- What follows the sign may look like a pattern to exclude, and it may be blanks only. -/
theorem wants_inserted_iff_exclude_sign :
    let line := "\t# ! a".toList
    let bare := " # \t".toList
    (('\n' ∉ line ∧ line.dropWhile Text.isBlank = '#' :: ' ' :: "! a".toList) ∧
      ∀ text new : String, Text.Inserted line text.toList new.toList →
        ∀ location, (read new).wants location = (read text).wants location) ∧
    ('\n' ∉ bare ∧ bare.dropWhile Text.isBlank = '#' :: ' ' :: ['\t']) ∧
      ∀ text new : String, Text.Inserted bare text.toList new.toList → ∀ location,
        (read new).wants location = ((read text).extend (ofTexts ["#"] [])).wants location := by
  intro line bare
  have hmarker : line.dropWhile Text.isBlank = '#' :: ' ' :: "! a".toList := by decide
  have hfeed : '\n' ∉ line := by decide
  have hmore : ∃ c ∈ "! a".toList, Text.isBlank c = false := ⟨'!', List.mem_cons_self, by decide⟩
  have hbare : bare.dropWhile Text.isBlank = '#' :: ' ' :: ['\t'] := by decide
  have hbareFeed : '\n' ∉ bare := by decide
  have hblanks : ∀ c ∈ ['\t'], Text.isBlank c = true :=
    List.forall_mem_singleton.mpr (by decide)
  exact ⟨⟨⟨hfeed, hmarker⟩, (wants_inserted_iff hfeed hmarker).1.mpr hmore⟩,
    ⟨hbareFeed, hbare⟩, (wants_inserted_iff hbareFeed hbare).2 hblanks⟩

/-- The sign of a remark alone in its line is a pattern to include, and all else is kept out. -/
theorem wants_bare_sign :
    ¬∀ line comment : List Char, '\n' ∉ line →
      line.dropWhile Text.isBlank = '#' :: ' ' :: comment →
      ∀ text new : String, Text.Inserted line text.toList new.toList →
        ∀ location, (read new).wants location = (read text).wants location := by
  intro h
  have hsame := h "# ".toList [] (by decide) (by decide) "" "# \n"
    (.inFront [] [] (.inl rfl)) "a"
  revert hsame
  decide

end Rules

end TestCoverage

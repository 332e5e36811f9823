import Mathlib
import TestCoverage.Lines.SourceLines

/-!
# Which lines a coverage records

`LineSet.contains_insertAll`, `SourceLines.records_add_iff` and `SourceLines.records_merge_iff`
say what one addition records. Every file of a coverage that is built by additions has a line
(`SourceLines.Lined`), so such a coverage is determined by the lines that it records
(`SourceLines.Lined.ext`).
-/

namespace TestCoverage

namespace LineSet

@[simp] theorem contains_empty (line : Line) : empty.contains line = false := rfl

theorem contains_insert (lines : LineSet) (line other : Line) :
    (lines.insert line).contains other = true ↔ line = other ∨ lines.contains other = true := by
  unfold contains insert
  rw [OrderedMap.find?_set]
  split
  · next heq => simp [heq]
  · next hne => simp [hne]

theorem contains_insertAll (lines : LineSet) (more : List Line) (line : Line) :
    (lines.insertAll more).contains line = true ↔ lines.contains line = true ∨ line ∈ more := by
  induction more generalizing lines with
  | nil => simp [insertAll]
  | cons first rest ih =>
    have hstep := ih (lines.insert first)
    rw [contains_insert] at hstep
    rw [insertAll, List.foldl_cons, ← insertAll, hstep, List.mem_cons, or_comm (a := first = line),
      or_assoc, eq_comm (a := first)]

theorem mem_toList_iff (lines : LineSet) (line : Line) :
    line ∈ lines.toList ↔ lines.contains line = true := by
  unfold toList contains OrderedMap.keys
  rw [List.mem_map, Option.isSome_iff_exists]
  constructor
  · rintro ⟨⟨other, value⟩, hmem, rfl⟩
    exact ⟨value, (OrderedMap.mem_entries_iff _ _ _).mp hmem⟩
  · rintro ⟨value, hfound⟩
    exact ⟨(line, value), (OrderedMap.mem_entries_iff _ _ _).mpr hfound, rfl⟩

theorem ext_contains {lines other : LineSet}
    (h : ∀ line, lines.contains line = true ↔ other.contains line = true) : lines = other := by
  refine congrArg LineSet.mk (OrderedMap.ext_find? fun line => ?_)
  have hline := h line
  unfold contains at hline
  cases hfound : lines.byLine.find? line <;> cases hother : other.byLine.find? line <;>
    simp_all

end LineSet

namespace SourceLines

/-- The coverage records the line of the file. -/
def Records (coverage : SourceLines) (path : String) (line : Line) : Prop :=
  (coverage.linesOf path).contains line = true

theorem not_records_empty (path : String) (line : Line) : ¬ empty.Records path line := by
  simp [Records, linesOf, empty]

theorem records_add_iff (coverage : SourceLines) (path other : String) (lines : List Line)
    (line : Line) :
    (coverage.add path lines).Records other line ↔
      coverage.Records other line ∨ path = other ∧ line ∈ lines := by
  unfold add
  split
  · next hempty => simp [List.isEmpty_iff.mp hempty]
  · have hlines : SourceLines.linesOf
          ⟨coverage.byPath.set path ((coverage.linesOf path).insertAll lines)⟩ other =
        if path = other then (coverage.linesOf path).insertAll lines
        else coverage.linesOf other := by
      unfold linesOf
      rw [OrderedMap.find?_set]
      split <;> rfl
    unfold Records
    rw [hlines]
    split
    · next hpath => simp [hpath, LineSet.contains_insertAll]
    · next hpath => simp [hpath]

theorem records_iff_exists_find? {coverage : SourceLines} {path : String} {line : Line} :
    coverage.Records path line ↔
      ∃ lines, coverage.byPath.find? path = some lines ∧ lines.contains line = true := by
  unfold Records linesOf
  cases coverage.byPath.find? path <;> simp

theorem records_foldl_add_iff (files : List (String × LineSet)) (coverage : SourceLines)
    (path : String) (line : Line) :
    (files.foldl (fun coverage (path, lines) => coverage.add path lines.toList)
        coverage).Records path line ↔
      coverage.Records path line ∨ ∃ lines, (path, lines) ∈ files ∧ lines.contains line = true := by
  induction files generalizing coverage with
  | nil => simp
  | cons file rest ih =>
    obtain ⟨other, lines⟩ := file
    rw [List.foldl_cons, ih, records_add_iff, LineSet.mem_toList_iff, or_assoc]
    refine or_congr_right ?_
    simp only [List.mem_cons, Prod.mk.injEq, or_and_right, exists_or, and_assoc]
    refine or_congr_left ⟨?_, ?_⟩
    · rintro ⟨rfl, hline⟩
      exact ⟨lines, rfl, rfl, hline⟩
    · rintro ⟨_, rfl, rfl, hline⟩
      exact ⟨rfl, hline⟩

theorem records_merge_iff (coverage other : SourceLines) (path : String) (line : Line) :
    (coverage.merge other).Records path line ↔
      coverage.Records path line ∨ other.Records path line := by
  have hother : other.Records path line ↔
      ∃ lines, (path, lines) ∈ other.files ∧ lines.contains line = true := by
    simp only [records_iff_exists_find?, files, OrderedMap.mem_entries_iff]
  rw [merge, records_foldl_add_iff, hother]

theorem records_foldl_merge_iff (others : List SourceLines) (coverage : SourceLines)
    (path : String) (line : Line) :
    (others.foldl merge coverage).Records path line ↔
      coverage.Records path line ∨ ∃ other ∈ others, other.Records path line := by
  induction others generalizing coverage with
  | nil => simp
  | cons other rest ih => simp [ih, records_merge_iff, or_assoc]

/-! ## No file without lines -/

/-- Every file of the coverage has a line. -/
def Lined (coverage : SourceLines) : Prop :=
  ∀ path lines, coverage.byPath.find? path = some lines → ∃ line, lines.contains line = true

theorem lined_empty : empty.Lined := fun _ _ h => by cases h

theorem Lined.add {coverage : SourceLines} (h : coverage.Lined) (path : String)
    (lines : List Line) : (coverage.add path lines).Lined := by
  unfold SourceLines.add
  split
  · exact h
  · next hlines =>
    obtain ⟨line, hline⟩ := List.exists_mem_of_ne_nil lines (by simpa using hlines)
    intro other found hfound
    dsimp only at hfound
    rw [OrderedMap.find?_set] at hfound
    split at hfound
    · obtain ⟨rfl⟩ := Option.some.inj hfound
      exact ⟨line, (LineSet.contains_insertAll _ _ _).mpr (Or.inr hline)⟩
    · exact h other found hfound

theorem Lined.merge {coverage : SourceLines} (h : coverage.Lined) (other : SourceLines) :
    (coverage.merge other).Lined := by
  unfold SourceLines.merge
  induction other.files generalizing coverage with
  | nil => exact h
  | cons file rest ih => exact ih (h.add file.1 file.2.toList)

theorem Lined.foldl_merge {coverage : SourceLines} (h : coverage.Lined)
    (others : List SourceLines) : (others.foldl SourceLines.merge coverage).Lined := by
  induction others generalizing coverage with
  | nil => exact h
  | cons other rest ih => exact ih (h.merge other)

/-- A coverage without empty files is determined by the lines that it records. -/
theorem Lined.ext {coverage other : SourceLines} (hcoverage : coverage.Lined)
    (hother : other.Lined)
    (h : ∀ path line, coverage.Records path line ↔ other.Records path line) :
    coverage = other := by
  refine congrArg SourceLines.mk (OrderedMap.ext_find? fun path => ?_)
  have hpath := h path
  simp only [records_iff_exists_find?] at hpath
  -- a file that only one of them has would have a line that only one records
  cases hfound : coverage.byPath.find? path with
  | none =>
    cases hfound' : other.byPath.find? path with
    | none => rfl
    | some lines =>
      obtain ⟨line, hline⟩ := hother path lines hfound'
      obtain ⟨_, habsurd, -⟩ := (hpath line).mpr ⟨lines, hfound', hline⟩
      rw [hfound] at habsurd
      cases habsurd
  | some lines =>
    cases hfound' : other.byPath.find? path with
    | none =>
      obtain ⟨line, hline⟩ := hcoverage path lines hfound
      obtain ⟨_, habsurd, -⟩ := (hpath line).mp ⟨lines, hfound, hline⟩
      rw [hfound'] at habsurd
      cases habsurd
    | some lines' =>
      refine congrArg some (LineSet.ext_contains fun line => ?_)
      simpa [hfound, hfound'] using hpath line

end SourceLines

end TestCoverage

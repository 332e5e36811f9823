import Mathlib
import TestCoverage.Proofs.Lines.SourceLines

/-!
# Reading line ranges

The numbers of the runs that ascending numbers are cut into are those numbers again
(`LineSet.numbers_runs`). So a set of lines that is not empty can be read from its ranges
(`LineSet.read?_render`).
-/

namespace TestCoverage

/-- Parts that can all be read back are read back one after the other. -/
theorem mapM_map_eq_some {α β γ : Type} {parts : List α} {write : α → β} {read? : β → Option γ}
    {value : α → γ} (h : ∀ part ∈ parts, read? (write part) = some (value part)) :
    (parts.map write).mapM read? = some (parts.map value) := by
  induction parts with
  | nil => rfl
  | cons part rest ih =>
    obtain ⟨hpart, hrest⟩ := List.forall_mem_cons.mp h
    rw [List.map_cons, List.mapM_cons, hpart, ih hrest]
    rfl

/-- The line with a number, if it is one of 32 bits and not zero. -/
def Line.ofNat? (number : Nat) : Option Line :=
  if number < UInt32.size then Line.ofNumber? (UInt32.ofNat number) else none

theorem Line.ofNat?_toNat (line : Line) : ofNat? line.number.toNat = some line := by
  unfold ofNat? ofNumber?
  rw [if_pos line.number.toNat_lt, UInt32.ofNat_toNat, dif_neg line.positive]

namespace LineSet

theorem ofList_toList (lines : LineSet) : ofList lines.toList = lines := by
  refine ext_contains fun line => ?_
  rw [ofList, contains_insertAll, contains_empty, mem_toList_iff]
  simp

/-! ## Runs -/

/-- The numbers in a range, in ascending order. -/
def Range.numbers (range : Range) : List Nat :=
  List.range' range.first (range.last + 1 - range.first)

theorem first_le_last_of_mem_runs {numbers : List Nat} {range : Range}
    (h : range ∈ runs numbers) : range.first ≤ range.last := by
  induction numbers generalizing range with
  | nil => cases h
  | cons number rest ih =>
    rw [runs] at h
    cases hruns : runs rest with
    | nil =>
      rw [hruns] at h
      rw [List.mem_singleton.mp h]
    | cons next others =>
      rw [hruns] at h ih
      have hnext := ih List.mem_cons_self
      dsimp only at h
      split at h
      · next hadjacent =>
        rcases List.mem_cons.mp h with rfl | h
        · dsimp only
          omega
        · exact ih (List.mem_cons_of_mem _ h)
      · rcases List.mem_cons.mp h with rfl | h
        · exact Nat.le_refl _
        · exact ih h

/-- A range that begins earlier by one has the earlier number besides. -/
theorem Range.numbers_extend {range : Range} {number : Nat} (hrange : range.first ≤ range.last)
    (hadjacent : range.first = number + 1) :
    Range.numbers ⟨number, range.last⟩ = number :: range.numbers := by
  unfold numbers
  have hlength : range.last + 1 - number = (range.last + 1 - range.first) + 1 := by omega
  rw [hlength, List.range'_succ, hadjacent]

theorem Range.numbers_single (number : Nat) : Range.numbers ⟨number, number⟩ = [number] := by
  rw [numbers, Nat.add_sub_cancel_left, List.range'_one]

theorem numbers_runs (numbers : List Nat) : (runs numbers).flatMap Range.numbers = numbers := by
  induction numbers with
  | nil => rfl
  | cons number rest ih =>
    rw [runs]
    cases hruns : runs rest with
    | nil =>
      rw [hruns] at ih
      rw [List.flatMap_singleton, Range.numbers_single, ← ih, List.flatMap_nil]
    | cons next others =>
      rw [hruns, List.flatMap_cons] at ih
      dsimp only
      split
      · next hadjacent =>
        have hnext : next.first ≤ next.last :=
          first_le_last_of_mem_runs (hruns ▸ List.mem_cons_self)
        rw [List.flatMap_cons, Range.numbers_extend hnext hadjacent, List.cons_append, ih]
      · rw [List.flatMap_cons, List.flatMap_cons, Range.numbers_single, List.singleton_append, ih]

/-! ## Reading -/

/-- The range with this written form: a number, or two numbers with a `-` between them. -/
def Range.read? (text : List Char) : Option Range :=
  match text.splitOn '-' with
  | [number] => do
    let number ← (String.ofList number).toNat?
    return ⟨number, number⟩
  | [first, last] => do
    let first ← (String.ofList first).toNat?
    let last ← (String.ofList last).toNat?
    return ⟨first, last⟩
  | _ => none

/-- The lines in the ranges of a text. -/
def read? (text : String) : Option LineSet := do
  let ranges ← (text.toList.splitOn ',').mapM Range.read?
  let lines ← (ranges.flatMap Range.numbers).mapM Line.ofNat?
  return ofList lines

theorem not_mem_toString {c : Char} (hc : c.isDigit = false) (number : Nat) :
    c ∉ (toString number).toList := by
  intro h
  rw [Nat.toString_eq_repr, Nat.repr_eq_ofList_toDigits, String.toList_ofList] at h
  rw [Nat.isDigit_of_mem_toDigits (by decide) (by decide) h] at hc
  cases hc

theorem comma_not_mem_render (range : Range) : ',' ∉ range.render.toList := by
  have hnumber := not_mem_toString (c := ',') rfl
  unfold Range.render
  split
  · exact hnumber _
  · rw [String.toList_append, String.toList_append, List.mem_append, List.mem_append, not_or,
      not_or]
    exact ⟨⟨hnumber _, by decide⟩, hnumber _⟩

theorem Range.read?_render (range : Range) : read? range.render.toList = some range := by
  unfold Range.render
  split
  · next hsingle =>
    unfold read?
    rw [List.splitOn_eq_singleton (not_mem_toString rfl _)]
    dsimp only
    rw [String.ofList_toList, Nat.toString_eq_repr, Nat.toNat?_repr]
    cases range
    cases hsingle
    rfl
  · have htext : (toString range.first ++ "-" ++ toString range.last).toList =
        (toString range.first).toList ++ '-' :: (toString range.last).toList := by simp
    unfold read?
    rw [htext, List.splitOn_append_cons_self_of_not_mem (not_mem_toString rfl _),
      List.splitOn_eq_singleton (not_mem_toString rfl _)]
    dsimp only
    rw [String.ofList_toList, String.ofList_toList, Nat.toString_eq_repr, Nat.toString_eq_repr,
      Nat.toNat?_repr, Nat.toNat?_repr]
    rfl

/-- A set of lines that is not empty is read back from its ranges. -/
theorem read?_render {lines : LineSet} (h : lines.toList ≠ []) :
    read? lines.render = some lines := by
  have hranges : lines.ranges ≠ [] := by
    intro hempty
    have hnumbers := numbers_runs (lines.toList.map (·.number.toNat))
    rw [← ranges, hempty, List.flatMap_nil] at hnumbers
    exact h (List.map_eq_nil_iff.mp hnumbers.symm)
  have hsplit : lines.render.toList.splitOn ',' =
      lines.ranges.map fun range => range.render.toList := by
    rw [render, String.toList_intercalate, List.map_map]
    refine List.splitOn_intercalate ',' ?_ (by simpa using hranges)
    simp [comma_not_mem_render]
  have hread : (lines.ranges.map fun range => range.render.toList).mapM Range.read? =
      some lines.ranges := by
    rw [mapM_map_eq_some fun range _ => Range.read?_render range, List.map_id']
  have hlines : (lines.toList.map (·.number.toNat)).mapM Line.ofNat? = some lines.toList := by
    rw [mapM_map_eq_some fun line _ => Line.ofNat?_toNat line, List.map_id']
  unfold read?
  rw [hsplit, hread]
  dsimp only [Option.bind_eq_bind, Option.bind_some]
  rw [ranges, numbers_runs, hlines]
  exact congrArg some (ofList_toList lines)

end LineSet

end TestCoverage

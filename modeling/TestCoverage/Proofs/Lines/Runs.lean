import Mathlib
import TestCoverage.Proofs.Lines.Ranges

/-!
# Ranges are maximal runs

A maximal run of a set of lines is a range of its lines with no line of the set right before or
right after it. The ranges that a set is written as are in ascending order with a gap before
each (`LineSet.separated_ranges`). From this and from the numbers they have it follows that they
are the maximal runs (`LineSet.mem_ranges_iff`) and that no fewer ranges have the same numbers
(`LineSet.length_ranges_le`).
-/

namespace TestCoverage.LineSet

/-- The number is in the range. -/
def Range.Has (range : Range) (number : Nat) : Prop :=
  range.first ≤ number ∧ number ≤ range.last

theorem Range.mem_numbers_iff {range : Range} {number : Nat} :
    number ∈ range.numbers ↔ range.Has number := by
  rw [numbers, Has, List.mem_range'_1]
  omega

/-- The number of a line of the set. -/
def HasNumber (lines : LineSet) (number : Nat) : Prop :=
  ∃ line, lines.contains line = true ∧ line.number.toNat = number

/-- The ranges have the numbers of the lines and no others. -/
def CoveredBy (lines : LineSet) (ranges : List Range) : Prop :=
  ∀ number, (∃ range ∈ ranges, range.Has number) ↔ lines.HasNumber number

/-- A range of lines of the set that cannot be extended. -/
structure MaximalRun (lines : LineSet) (range : Range) : Prop where
  first_le_last : range.first ≤ range.last
  hasNumber : ∀ number, range.Has number → lines.HasNumber number
  not_before : ∀ number, number + 1 = range.first → ¬ lines.HasNumber number
  not_after : ¬ lines.HasNumber (range.last + 1)

/-- Between a range and those that follow it a number is left out. -/
def Separated (ranges : List Range) : Prop :=
  ranges.Pairwise fun a b => a.last + 1 < b.first

/-! ## Runs of ascending numbers -/

theorem separated_runs {numbers : List Nat} (h : numbers.Pairwise (· < ·)) :
    Separated (runs numbers) := by
  induction numbers with
  | nil => exact List.Pairwise.nil
  | cons number rest ih =>
    obtain ⟨hhead, hrest⟩ := List.pairwise_cons.mp h
    have ih := ih hrest
    rw [runs]
    cases hruns : runs rest with
    | nil => exact List.pairwise_singleton _ _
    | cons range others =>
      rw [hruns] at ih
      obtain ⟨hgap, hothers⟩ := List.pairwise_cons.mp ih
      have hle : range.first ≤ range.last :=
        first_le_last_of_mem_runs (hruns ▸ List.mem_cons_self)
      have hlt : number < range.first := by
        apply hhead
        rw [← numbers_runs rest, hruns, List.flatMap_cons, List.mem_append]
        exact .inl (Range.mem_numbers_iff.mpr ⟨Nat.le_refl _, hle⟩)
      dsimp only
      split
      · exact List.pairwise_cons.mpr ⟨hgap, hothers⟩
      · next hapart =>
        have hnext : number + 1 < range.first := by omega
        refine List.pairwise_cons.mpr ⟨?_, ih⟩
        intro other hother
        rcases List.mem_cons.mp hother with rfl | hother
        · exact hnext
        · have := hgap other hother
          show number + 1 < other.first
          omega

theorem pairwise_numbers (lines : LineSet) :
    (lines.toList.map (·.number.toNat)).Pairwise (· < ·) := by
  rw [toList, OrderedMap.keys, List.map_map, List.pairwise_map]
  exact lines.byLine.sorted.imp fun h => UInt32.lt_iff_toNat_lt.mp h

theorem separated_ranges (lines : LineSet) : Separated lines.ranges :=
  separated_runs (pairwise_numbers lines)

theorem coveredBy_ranges (lines : LineSet) : lines.CoveredBy lines.ranges := by
  intro number
  have hnumbers : (∃ range ∈ lines.ranges, range.Has number) ↔
      number ∈ lines.ranges.flatMap Range.numbers := by
    simp only [List.mem_flatMap, Range.mem_numbers_iff]
  rw [hnumbers, ranges, numbers_runs, List.mem_map, HasNumber]
  simp only [mem_toList_iff]

/-! ## Maximal runs -/

variable {lines : LineSet} {ranges : List Range} {range : Range}

theorem Separated.apart {other : Range} (h : Separated ranges) (hmem : range ∈ ranges)
    (hother : other ∈ ranges) (hne : range ≠ other) :
    range.last + 1 < other.first ∨ other.last + 1 < range.first := by
  have hsymm : Std.Symm fun a b : Range => a.last + 1 < b.first ∨ b.last + 1 < a.first :=
    ⟨fun _ _ => Or.symm⟩
  have hpairs := h.imp fun {a b} hgap =>
    (.inl hgap : a.last + 1 < b.first ∨ b.last + 1 < a.first)
  exact hpairs.forall hmem hother hne

/-- What separated ranges have is the set, so what is left out next to one of them is not. -/
theorem Separated.maximalRun (hseparated : Separated ranges) (hcovered : lines.CoveredBy ranges)
    (hle : ∀ range ∈ ranges, range.first ≤ range.last) (hmem : range ∈ ranges) :
    lines.MaximalRun range := by
  have hrange := hle range hmem
  -- a number right before or after would be in another range, with no gap to this one
  have hbeside : ∀ number, number + 1 = range.first ∨ number = range.last + 1 →
      ¬ lines.HasNumber number := by
    intro number hnumber hnot
    obtain ⟨other, hother, hhas⟩ := (hcovered number).mpr hnot
    unfold Range.Has at hhas
    by_cases hsame : range = other
    · subst hsame
      omega
    · have := hseparated.apart hmem hother hsame
      omega
  exact ⟨hrange, fun number hhas => (hcovered number).mp ⟨range, hmem, hhas⟩,
    fun number hnumber => hbeside number (.inl hnumber), hbeside _ (.inr rfl)⟩

namespace MaximalRun

variable {other : Range} {number : Nat}

/-- A maximal run does not begin inside another one. -/
theorem first_le (hrange : lines.MaximalRun range) (hother : lines.MaximalRun other)
    (hhas : range.Has number) (hhas' : other.Has number) : range.first ≤ other.first := by
  by_contra hlt
  have hinside : other.Has (range.first - 1) := by
    have := hhas.1
    have := hhas'.2
    exact ⟨by omega, by omega⟩
  exact hrange.not_before (range.first - 1) (by omega) (hother.hasNumber _ hinside)

/-- A maximal run does not end inside another one. -/
theorem le_last (hrange : lines.MaximalRun range) (hother : lines.MaximalRun other)
    (hhas : range.Has number) (hhas' : other.Has number) : other.last ≤ range.last := by
  by_contra hlt
  have hinside : other.Has (range.last + 1) := by
    have := hhas.2
    have := hhas'.1
    exact ⟨by omega, by omega⟩
  exact hrange.not_after (hother.hasNumber _ hinside)

/-- Two maximal runs that share a number are the same. -/
theorem unique (hrange : lines.MaximalRun range) (hother : lines.MaximalRun other)
    (hhas : range.Has number) (hhas' : other.Has number) : range = other := by
  have hfirst := Nat.le_antisymm (hrange.first_le hother hhas hhas')
    (hother.first_le hrange hhas' hhas)
  have hlast := Nat.le_antisymm (hother.le_last hrange hhas' hhas)
    (hrange.le_last hother hhas hhas')
  cases range
  cases other
  exact congr (congrArg Range.mk hfirst) hlast

end MaximalRun

theorem maximalRun_of_mem_ranges (h : range ∈ lines.ranges) : lines.MaximalRun range :=
  (separated_ranges lines).maximalRun (coveredBy_ranges lines)
    (fun _ => first_le_last_of_mem_runs) h

theorem mem_ranges_iff : range ∈ lines.ranges ↔ lines.MaximalRun range := by
  constructor
  · exact maximalRun_of_mem_ranges
  · intro hrun
    have hfirst : range.Has range.first := ⟨Nat.le_refl _, hrun.first_le_last⟩
    obtain ⟨other, hother, hhas⟩ := (coveredBy_ranges lines _).mpr (hrun.hasNumber _ hfirst)
    rwa [hrun.unique (maximalRun_of_mem_ranges hother) hfirst hhas]

/-- A range that has the first numbers of two maximal runs has what is left out in between. So
each maximal run has a range of its own. -/
theorem length_ranges_le (h : lines.CoveredBy ranges) : lines.ranges.length ≤ ranges.length := by
  have hhome : ∀ run ∈ lines.ranges, ∃ range ∈ ranges, range.Has run.first := by
    intro run hmem
    have hrun := mem_ranges_iff.mp hmem
    exact (h run.first).mpr (hrun.hasNumber _ ⟨Nat.le_refl _, hrun.first_le_last⟩)
  have : Nonempty Range := ⟨⟨0, 0⟩⟩
  choose! home hmem hhas using hhome
  have hnodup : (lines.ranges.map home).Nodup := by
    refine List.pairwise_map.mpr ((separated_ranges lines).imp_of_mem ?_)
    intro a b ha hb hgap hsame
    have hrun := mem_ranges_iff.mp ha
    have hbetween : (home a).Has (a.last + 1) := by
      have hleft := (hhas a ha).1
      have hright := (hsame ▸ hhas b hb : (home a).Has b.first).2
      have := hrun.first_le_last
      exact ⟨by omega, by omega⟩
    exact hrun.not_after ((h _).mp ⟨home a, hmem a ha, hbetween⟩)
  have hsubset : lines.ranges.map home ⊆ ranges := by
    intro range hrange
    obtain ⟨run, hrun, rfl⟩ := List.mem_map.mp hrange
    exact hmem run hrun
  rw [← List.length_map (f := home)]
  exact hnodup.length_le_of_subset hsubset

/-! ## Reading -/

/-- The lines in the ranges of a text. The text without characters has no ranges. -/
def ofText? (text : String) : Option LineSet :=
  if text = "" then some empty else read? text

theorem ofText?_render (lines : LineSet) : ofText? lines.render = some lines := by
  unfold ofText?
  cases hlines : lines.toList with
  | nil =>
    have hempty : lines = empty := by
      rw [← ofList_toList lines, hlines]
      rfl
    rw [hempty]
    exact if_pos rfl
  | cons line rest =>
    have hread : read? lines.render = some lines := read?_render (by simp [hlines])
    have hne : lines.render ≠ "" := by
      intro hrender
      rw [hrender] at hread
      have hnone : read? "" = none := by cbv
      cases hread.symm.trans hnone
    rw [if_neg hne, hread]

/-- The ranges of a set of lines are its maximal runs in ascending order, with a line left out
between any two. No shorter list of ranges has exactly these lines, and the lines are read back
from the written ranges. -/
theorem ranges_maximal (lines : LineSet) :
    lines.ranges.Pairwise (fun a b => a.last + 1 < b.first) ∧
      (∀ range, range ∈ lines.ranges ↔ lines.MaximalRun range) ∧
      lines.CoveredBy lines.ranges ∧
      (∀ others, lines.CoveredBy others → lines.ranges.length ≤ others.length) ∧
      ofText? lines.render = some lines :=
  ⟨separated_ranges lines, fun _ => mem_ranges_iff, coveredBy_ranges lines,
    fun _ => length_ranges_le, ofText?_render lines⟩

/-- The largest line ends a run. -/
example : (ofList [⟨4294967295, by decide⟩, ⟨2, by decide⟩, ⟨4294967294, by decide⟩]).ranges =
    [⟨2, 2⟩, ⟨4294967294, 4294967295⟩] := by decide

end TestCoverage.LineSet

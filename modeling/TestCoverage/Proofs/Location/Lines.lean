import Mathlib
import TestCoverage.Location.Rules

/-!
# Rules line by line

A text with rules has the patterns of its lines (`Rules.read_eq`). Which locations rules want
depends on two sets only, the patterns to include and the patterns to exclude
(`Rules.alike_of_mem_iff`), so it does not matter where a line stands.
-/

namespace TestCoverage

namespace RuleLine

def included? : RuleLine → Option Pattern
  | .including pattern => some pattern
  | .blank | .remark | .excluding _ => none

def excluded? : RuleLine → Option Pattern
  | .excluding pattern => some pattern
  | .blank | .remark | .including _ => none

end RuleLine

namespace Rules

/-! ## Reading lines -/

def ofLines (lines : List RuleLine) : Rules :=
  ⟨lines.filterMap RuleLine.included?, lines.filterMap RuleLine.excluded?⟩

theorem addLine_eq (rules : Rules) (line : RuleLine) :
    rules.addLine line = rules.extend (ofLines [line]) := by
  obtain ⟨includes, excludes⟩ := rules
  cases line <;> simp [addLine, extend, ofLines, RuleLine.included?, RuleLine.excluded?]

theorem ofLines_append (lines others : List RuleLine) :
    ofLines (lines ++ others) = (ofLines lines).extend (ofLines others) := by
  simp [ofLines, extend]

/-- The rules of a text are those of its lines. -/
theorem read_eq (text : String) :
    read text = ofLines ((Text.lines text.toList).map RuleLine.read) := by
  unfold read
  induction Text.lines text.toList using List.reverseRecOn with
  | nil => rfl
  | append_singleton lines line ih =>
    rw [List.foldl_append, ih, List.map_append, ofLines_append]
    exact addLine_eq _ _

/-! ## Which locations are wanted -/

/-- A pattern to include matches the location. -/
def Includes (rules : Rules) (location : String) : Prop :=
  ∃ pattern ∈ rules.includes, pattern.accepts location.toList = true

/-- A pattern to exclude matches the location. -/
def Excludes (rules : Rules) (location : String) : Prop :=
  ∃ pattern ∈ rules.excludes, pattern.accepts location.toList = true

/-- The rules want the same locations. -/
def Alike (rules others : Rules) : Prop :=
  ∀ location, rules.wants location = others.wants location

theorem wants_iff (rules : Rules) (location : String) :
    rules.wants location = true ↔
      (rules.includes = [] ∨ rules.Includes location) ∧ ¬rules.Excludes location := by
  simp [wants, Includes, Excludes]

/-- It only matters which patterns there are. -/
theorem alike_of_mem_iff {a b : Rules}
    (hincludes : ∀ pattern, pattern ∈ a.includes ↔ pattern ∈ b.includes)
    (hexcludes : ∀ pattern, pattern ∈ a.excludes ↔ pattern ∈ b.excludes) : a.Alike b := by
  intro location
  rw [Bool.eq_iff_iff, wants_iff, wants_iff, List.eq_nil_iff_forall_not_mem,
    List.eq_nil_iff_forall_not_mem]
  simp only [Includes, Excludes, hincludes, hexcludes]

end Rules

end TestCoverage

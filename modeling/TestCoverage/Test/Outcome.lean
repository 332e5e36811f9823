/-!
# Outcomes and results of tests

Outcomes are ordered from the least to the most severe. A result is an outcome with perhaps
a message; of two results together the more severe outcome counts and both messages are
kept, one on a line after the other.
-/

namespace TestCoverage

/-- How a test ended. -/
inductive Outcome where
  | passed
  | ignored
  | skipped
  | failure
  | error
deriving DecidableEq, Repr, Inhabited

namespace Outcome

def severity : Outcome → Nat
  | .passed => 0
  | .ignored => 1
  | .skipped => 2
  | .failure => 3
  | .error => 4

def worse (a b : Outcome) : Outcome := if a.severity < b.severity then b else a

theorem severity_worse (a b : Outcome) : (a.worse b).severity = max a.severity b.severity := by
  unfold worse
  split <;> omega

def render : Outcome → String
  | .passed => "PASSED"
  | .ignored => "IGNORED"
  | .skipped => "SKIPPED"
  | .failure => "FAILURE"
  | .error => "ERROR"

def all : List Outcome := [.passed, .ignored, .skipped, .failure, .error]

/-- The outcome with this written form, in letters of either case. The letters are those of
ASCII. -/
def read? (text : String) : Option Outcome :=
  all.find? fun outcome => outcome.render.toList == text.toList.map Char.toUpper

/-- What is said of a text that writes no outcome. -/
def unknownMessage (text : String) : String := "unknown test outcome `" ++ text ++ "`"

end Outcome

/-- The result of a test. -/
structure TestResult where
  outcome : Outcome
  /-- What the test had to say, such as a stack trace. -/
  message : Option String
deriving DecidableEq, Repr

namespace TestResult

def passed : TestResult := ⟨.passed, none⟩

instance : Inhabited TestResult := ⟨passed⟩

def joinMessages : Option String → Option String → Option String
  | some first, some second => some (first ++ "\n" ++ second)
  | some first, none => some first
  | none, second => second

def absorb (result other : TestResult) : TestResult :=
  ⟨result.outcome.worse other.outcome, joinMessages result.message other.message⟩

end TestResult

end TestCoverage

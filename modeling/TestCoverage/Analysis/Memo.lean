import TestCoverage.Analysis.Model

/-!
# Each class is analysed once

The memo keeps the model, or the fault, of every class identity that was asked for. A class
is analysed the first time its identity comes up and never again; a fault is noted once, at
that time.
-/

namespace TestCoverage

/-- What came of the analyses so far. -/
structure AnalysisMemo where
  /-- The identities that were analysed, with what came of it. -/
  known : List (ClassIdentity × Except AnalysisFault ClassModel)
  /-- How often a class was analysed. -/
  runs : Nat

namespace AnalysisMemo

def empty : AnalysisMemo := ⟨[], 0⟩

/-- What came of the analysis of an identity, if there was one. -/
def find? (memo : AnalysisMemo) (identity : ClassIdentity) :
    Option (Except AnalysisFault ClassModel) :=
  (memo.known.find? (·.1 == identity)).map (·.2)

def analyse (analyzer : Analyzer) (definition : ClassDefinition) :
    Except AnalysisFault ClassModel :=
  (analyzer definition).mapError fun reasons => ⟨definition.identity, reasons⟩

/-- The model of a class, from the memo or else from the analyzer. The fault of a first
analysis is the third part of the answer. -/
def modelFor (analyzer : Analyzer) (memo : AnalysisMemo) (definition : ClassDefinition) :
    AnalysisMemo × Except AnalysisFault ClassModel × Option AnalysisFault :=
  match memo.find? definition.identity with
  | some outcome => (memo, outcome, none)
  | none =>
    let outcome := analyse analyzer definition
    let fault? := match outcome with
      | .error fault => some fault
      | .ok _ => none
    (⟨(definition.identity, outcome) :: memo.known, memo.runs + 1⟩, outcome, fault?)

def size (memo : AnalysisMemo) : Nat := memo.known.length

end AnalysisMemo

end TestCoverage

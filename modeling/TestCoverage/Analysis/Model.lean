import TestCoverage.ClassFile.Definition
import TestCoverage.Lines.LineSet

/-!
# Models of classes

The model of a class says which lines each of its probes proves executed, and in which
source file they are. An analyzer makes the model of a class from its definition, or says
why it cannot; the reasons go from the outermost to the root cause.
-/

namespace TestCoverage

/-- The lines that the probes of a class prove executed. -/
structure ClassModel where
  /-- The path of the source file below the source root. -/
  sourcePath : String
  /-- The lines of each probe. -/
  probes : List LineSet

namespace ClassModel

/-- The lines of the probes that were hit, probe by probe. A line of several such probes
comes several times. -/
def coveredLines (model : ClassModel) (hits : List Bool) : List Line :=
  (List.zip hits model.probes).flatMap fun (hit, lines) => if hit then lines.toList else []

end ClassModel

/-- Why a class has no model. -/
structure AnalysisFault where
  identity : ClassIdentity
  /-- The reasons, the outermost first. -/
  reasons : List String
deriving DecidableEq, Repr

namespace AnalysisFault

def reason (fault : AnalysisFault) : String := String.intercalate ": " fault.reasons

def message (fault : AnalysisFault) : String :=
  "unable to analyze class " ++ fault.identity.render ++ ": " ++ fault.reason

end AnalysisFault

/-- Makes models of classes, or gives the reasons why there is none. -/
abbrev Analyzer := ClassDefinition → Except (List String) ClassModel

/-- What a table says about the class of a name. -/
structure AnalysisRow where
  className : String
  /-- The lines of each probe, or the reasons why there is no model. A line zero is no line,
  so a row with one has no model either. -/
  probes : Except (List String) (List (List UInt32))
  /-- The source path, if it is another one than the definition says. -/
  sourcePath : Option String

/-- The lines with these numbers, if none of them is zero. -/
def LineSet.ofNumbers? (numbers : List UInt32) : Option LineSet :=
  (numbers.mapM Line.ofNumber?).map LineSet.ofList

/-- The analyzer that looks classes up in a table by name; the first row of a name counts. -/
def Analyzer.ofTable (rows : List AnalysisRow) : Analyzer := fun definition =>
  match rows.find? (·.className == definition.name) with
  | none => .error ["no debug information"]
  | some row => do
    match (← row.probes).mapM LineSet.ofNumbers? with
    | none => .error [Line.zeroMessage]
    | some probes => .ok ⟨row.sourcePath.getD definition.sourcePath, probes⟩

end TestCoverage

import TestCoverage.Dump
import TestCoverage.Test.Kind
import TestCoverage.Test.Outcome

/-!
# Executions

An execution is one finished run of a test or hook, with what was recorded while it ran. Its
duration is the measured one, or else the time that the session of its dump spans.
-/

namespace TestCoverage

/-- One finished run of a test or hook. -/
structure Execution where
  id : String
  kind : TestKind
  result : TestResult
  /-- The duration, if it was measured. -/
  measured : Option Duration
  dump : Dump

namespace Execution

/-- A run that passed, without a measured duration. -/
def ofRun (id : String) (kind : TestKind) (dump : Dump) : Execution :=
  ⟨id, kind, .passed, none, dump⟩

/-- The run that a dump recorded: the name of the session is the identifier. -/
def ofDump (dump : Dump) : Execution :=
  ofRun dump.session.id (TestKind.ofId dump.session.id) dump

def duration (execution : Execution) : Duration :=
  execution.measured.getD execution.dump.session.duration

end Execution

end TestCoverage

import TestCoverage.Dump.Payload
import TestCoverage.Test.Details
import TestCoverage.Test.Outcome
import TestCoverage.Time

/-!
# Events of a test run

A test starts, with what was recorded since the event before, and finishes, with what was
recorded since it started. Collectors take every event.
-/

namespace TestCoverage

/-- An event of a test run. -/
inductive TestEvent where
  /-- A test starts; the payload was recorded between tests. -/
  | started (test : TestDetails) (payload : Bytes)
  /-- A test has finished; the payload was recorded while it ran, and `elapsed` is the time
  since it started, if it was seen to start. -/
  | finished (test : TestDetails) (result : TestResult) (payload : Bytes) (elapsed : Duration)
deriving Repr

/-- What collectors note. -/
inductive CollectNotice where
  /-- A payload cannot be read; the test is kept without it. -/
  | withoutCoverage (fault : MalformedPayload)
  /-- A payload cannot be read and is passed over. -/
  | ignored (fault : MalformedPayload)
  | dropped (fault : MergeFault)
  | keptExecutions (count : Nat) (reason : String)
  | keptCoverage (reason : String)
deriving DecidableEq, Repr

def CollectNotice.message : CollectNotice → String
  | .withoutCoverage fault => fault.message ++ "; keeping the test without coverage"
  | .ignored fault => fault.message ++ "; ignoring its coverage"
  | .dropped fault => "dropping execution data: " ++ fault.message
  | .keptExecutions count reason =>
    "unable to write testwise coverage, keeping " ++ toString count ++
      " executions for the next dump: " ++ reason
  | .keptCoverage reason =>
    "unable to write line coverage, keeping it for the next dump: " ++ reason

end TestCoverage

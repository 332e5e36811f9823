import TestCoverage.Collect.Event
import TestCoverage.Reporter

/-!
# Collecting per-test coverage

The collector keeps an execution for every finished test until a report of them is written.
When the sink of a report refuses, the executions are kept for the next one. What was
recorded between tests belongs to no test and is dropped.
-/

namespace TestCoverage

/-- The finished tests that no report holds yet. -/
structure PerTestCollector where
  /-- The tests that were seen to start and have not finished. -/
  started : List String
  executions : List Execution

namespace PerTestCollector

def empty : PerTestCollector := ⟨[], []⟩

/-- What a finished test recorded, as one dump under its identifier. -/
def readDump (id : String) (payload : Bytes) : Dump × List CollectNotice :=
  match Payload.decode payload ("dump of test " ++ id) with
  | .error fault => (.anonymous, [.withoutCoverage fault])
  | .ok dumps =>
    let (dump, faults) := Dump.combine id dumps
    (dump, faults.map .dropped)

def take (collector : PerTestCollector) : TestEvent → PerTestCollector × List CollectNotice
  | .started test _ =>
    let id := test.internalId
    ({ collector with started := id :: collector.started.filter (· ≠ id) }, [])
  | .finished test result payload elapsed =>
    let id := test.internalId
    let (dump, notices) := readDump id payload
    let measured := if collector.started.contains id then some elapsed else none
    ({ started := collector.started.filter (· ≠ id)
       executions := collector.executions ++ [⟨id, test.kind, result, measured, dump⟩] },
      notices)

/-- The number of executions that wait for a report. -/
def pending (collector : PerTestCollector) : Nat := collector.executions.length

def drain (collector : PerTestCollector) : PerTestCollector × List Execution :=
  ({ collector with executions := [] }, collector.executions)

/-- Puts executions back in front of those that came since. -/
def restore (collector : PerTestCollector) (executions : List Execution) : PerTestCollector :=
  { collector with executions := executions ++ collector.executions }

/-- What comes of an attempt to write a report. -/
structure Attempt where
  collector : PerTestCollector
  reporter : Reporter
  sink : Sink
  reporterNotices : List ReporterNotice
  notices : List CollectNotice
  /-- The summary of the report, or nothing if there was nothing to report. -/
  outcome : Except ReportingFault (Option ReportSummary)

/-- The wording of what kept a report from being written. -/
def reason : ReportingFault → String
  | .duration => "overflow when adding durations"
  | .report fault => fault.message
  | .payload fault => fault.message

/-- Writes a report of the executions that are taken out. They are put back if that fails. -/
def dump (collector : PerTestCollector) (reporter : Reporter) (sink : Sink) : Attempt :=
  let (drained, executions) := collector.drain
  if executions.isEmpty then ⟨drained, reporter, sink, [], [], .ok none⟩
  else
    let reported := reporter.report executions sink
    match reported.outcome with
    | .ok summary =>
      ⟨drained, reported.reporter, reported.sink, reported.notices, [], .ok (some summary)⟩
    | .error fault =>
      ⟨drained.restore executions, reported.reporter, reported.sink, reported.notices,
        [.keptExecutions executions.length (reason fault)], .error fault⟩

end PerTestCollector

end TestCoverage

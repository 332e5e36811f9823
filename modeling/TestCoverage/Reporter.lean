import TestCoverage.Analysis.LineMapper
import TestCoverage.Dump.Payload
import TestCoverage.Report.PerTest
import TestCoverage.Settings
import TestCoverage.Test.Attribution

/-!
# Reporters

A reporter knows the classes under test and remembers what was analysed and noted. It turns
executions into a per-test report, written test by test (`Reporter.report`), and stores into
covered lines (`Reporter.coverage`).
-/

namespace TestCoverage

/-- What a reporter notes. -/
inductive ReporterNotice where
  | attribution (notice : AttributionNotice)
  | omission (cause : Omission)
  | unresolved (count : Nat)
deriving DecidableEq, Repr

def ReporterNotice.message : ReporterNotice → String
  | .attribution notice => notice.message
  | .omission cause => cause.message
  | .unresolved count => toString count ++ " hooks could not be attributed to a test"

/-- What a report holds. -/
structure ReportSummary where
  /-- The number of tests that were written. -/
  tests : Nat
  /-- The hooks that stand for themselves. -/
  unresolved : List UnresolvedHook
deriving DecidableEq, Repr

/-- Why there is no reporter. -/
inductive ReporterFault where
  | settings (fault : SettingsFault)
  | search (fault : SearchFault)

/-- Why there is no report. -/
inductive ReportingFault where
  /-- A clock cannot show the duration of some test. -/
  | duration
  | report (fault : ReportFault)
  | payload (fault : MalformedPayload)
deriving DecidableEq, Repr

/-- What turns executions into reports. -/
structure Reporter where
  mapper : LineMapper

namespace Reporter

/-- A reporter for the classes that the settings ask for, with what is noted. -/
def ofSettings (settings : Settings) (tree : FileTree) (analyzer : Analyzer) :
    List ListingNotice × Except ReporterFault Reporter :=
  match (do
    settings.check
    settings.search tree : Except SettingsFault Search) with
  | .error fault => ([], .error (.settings fault))
  | .ok search =>
    match search.catalog tree with
    | (notices, .error fault) => (notices, .error (.search fault))
    | (notices, .ok catalog) => (notices, .ok ⟨.fresh catalog analyzer⟩)

def catalog (reporter : Reporter) : Catalog := reporter.mapper.catalog

def memo (reporter : Reporter) : AnalysisMemo := reporter.mapper.memo

/-- The lines that a store proves executed, with the reporter afterwards and what it notes. -/
def coverage (reporter : Reporter) (store : ProbeStore) :
    Reporter × List ReporterNotice × SourceLines :=
  let progress := reporter.mapper.map store
  (⟨progress.mapper⟩, progress.omissions.map .omission, progress.coverage)

def entry (reporter : Reporter) (test : LogicalTest) :
    Reporter × List ReporterNotice × TestCoverageEntry :=
  let (reporter, notices, coverage) := reporter.coverage test.store
  (reporter, notices, ⟨test.id, test.duration, test.result, coverage⟩)

/-- A report that is under way. -/
structure Run where
  reporter : Reporter
  writer : PerTestWriter
  notices : List ReporterNotice

/-- Writes tests until the sink refuses. -/
def writeTests : Run → List LogicalTest → Run × Except ReportFault Unit
  | run, [] => (run, .ok ())
  | run, test :: rest =>
    let (reporter, notices, entry) := run.reporter.entry test
    match run.writer.writeTest entry with
    | (writer, .ok ()) => writeTests ⟨reporter, writer, run.notices ++ notices⟩ rest
    | (writer, .error fault) => (⟨reporter, writer, run.notices ++ notices⟩, .error fault)

def writeReport (run : Run) (tests : List LogicalTest) : Run × Except ReportFault Unit :=
  match run.writer.begin with
  | (writer, .error fault) => ({ run with writer }, .error fault)
  | (writer, .ok ()) =>
    match writeTests { run with writer } tests with
    | (run, .error fault) => (run, .error fault)
    | (run, .ok ()) =>
      let (writer, outcome) := run.writer.close
      ({ run with writer }, outcome)

/-- What comes of a report: the reporter and the sink afterwards, what was noted, and the
summary unless the report failed. -/
structure Reported where
  reporter : Reporter
  sink : Sink
  notices : List ReporterNotice
  outcome : Except ReportingFault ReportSummary

def reportMerged (reporter : Reporter) (merged : MergedTests) (sink : Sink) : Reported :=
  let start : Run :=
    ⟨reporter, .fresh sink, merged.notices.map ReporterNotice.attribution⟩
  match writeReport start merged.tests with
  | (run, .error fault) =>
    ⟨run.reporter, run.writer.sink, run.notices, .error (.report fault)⟩
  | (run, .ok ()) =>
    let notices :=
      if merged.unresolved.isEmpty then run.notices
      else run.notices ++ [.unresolved merged.unresolved.length]
    ⟨run.reporter, run.writer.sink, notices, .ok ⟨run.writer.tests, merged.unresolved⟩⟩

/-- Writes the report of some executions in the order of their arrival. -/
def report (reporter : Reporter) (executions : List Execution) (sink : Sink) : Reported :=
  match MergedTests.ofExecutions executions with
  | none => ⟨reporter, sink, [], .error .duration⟩
  | some merged => reporter.reportMerged merged sink

/-- Writes the report of a payload. Each of its sessions is an execution under the name of the
session. -/
def reportPayload (reporter : Reporter) (payload : Bytes) (provenance : String) (sink : Sink) :
    Reported :=
  match Payload.decode payload provenance with
  | .error fault => ⟨reporter, sink, [], .error (.payload fault)⟩
  | .ok dumps => reporter.report (dumps.map Execution.ofDump) sink

end Reporter

end TestCoverage

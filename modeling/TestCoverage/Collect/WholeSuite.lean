import TestCoverage.Collect.Event
import TestCoverage.Report.WholeSuite
import TestCoverage.Reporter

/-!
# Collecting the coverage of the whole suite

The collector merges everything that is recorded, between tests too, into one session until a
report of it is written. When the sink of a report refuses, everything is kept for the next
one.
-/

namespace TestCoverage

/-- What was recorded and no report holds yet. -/
structure SuiteCollector where
  sessions : List Session
  store : ProbeStore

namespace SuiteCollector

def empty : SuiteCollector := ⟨[], .empty⟩

/-- The name of the session that spans all sessions. -/
def sessionId : String := "merged"

/-- Nothing was recorded. -/
def isEmpty (collector : SuiteCollector) : Bool :=
  collector.sessions.isEmpty && collector.store.isEmpty

def addDump (collector : SuiteCollector) (dump : Dump) :
    SuiteCollector × List CollectNotice :=
  let (store, faults) := collector.store.merge dump.store
  (⟨collector.sessions ++ [dump.session], store⟩, faults.map .dropped)

def addDumps (collector : SuiteCollector) (dumps : List Dump) :
    SuiteCollector × List CollectNotice :=
  dumps.foldl (fun (collector, notices) dump =>
    let (collector, more) := collector.addDump dump
    (collector, notices ++ more)) (collector, [])

/-- Takes a payload. An empty one says nothing. -/
def addPayload (collector : SuiteCollector) (payload : Bytes) (provenance : String) :
    SuiteCollector × List CollectNotice :=
  if payload.isEmpty then (collector, [])
  else
    match Payload.decode payload provenance with
    | .ok dumps => collector.addDumps dumps
    | .error fault => (collector, [.ignored fault])

def take (collector : SuiteCollector) : TestEvent → SuiteCollector × List CollectNotice
  | .started test payload =>
    collector.addPayload payload ("dump before test " ++ test.internalId)
  | .finished test _ payload _ =>
    collector.addPayload payload ("dump of test " ++ test.internalId)

/-- The number of class versions that wait for a report. -/
def pending (collector : SuiteCollector) : Nat := collector.store.size

def drain (collector : SuiteCollector) : SuiteCollector × SuiteCollector := (empty, collector)

def absorb (collector other : SuiteCollector) : SuiteCollector × List CollectNotice :=
  let (store, faults) := collector.store.merge other.store
  (⟨collector.sessions ++ other.sessions, store⟩, faults.map .dropped)

/-- What comes of an attempt to write a report. -/
structure Attempt where
  collector : SuiteCollector
  reporter : Reporter
  sink : Sink
  reporterNotices : List ReporterNotice
  notices : List CollectNotice
  /-- The session of the report, or nothing if there was nothing to report. -/
  outcome : Except WriteFailure (Option Session)

/-- Writes a report of what was recorded, which is taken out and put back if that fails. -/
def dump (collector : SuiteCollector) (reporter : Reporter) (sink : Sink) : Attempt :=
  let (drained, merged) := collector.drain
  if merged.isEmpty then ⟨drained, reporter, sink, [], [], .ok none⟩
  else
    let session := Session.spanning sessionId merged.sessions
    let (reporter, reporterNotices, coverage) := reporter.coverage merged.store
    match sink.writeDocument (wholeSuiteMarkup session coverage) with
    | (sink, .ok ()) => ⟨drained, reporter, sink, reporterNotices, [], .ok (some session)⟩
    | (sink, .error failure) =>
      let (restored, notices) := drained.absorb merged
      ⟨restored, reporter, sink, reporterNotices, .keptCoverage failure.message :: notices,
        .error failure⟩

end SuiteCollector

end TestCoverage

import Mathlib
import TestCoverage.Proofs.Analysis.Requests
import TestCoverage.Proofs.Reporter

/-!
# A reporter analyses what it needs, once

A call on a reporter processes some stores: the one whose coverage is asked for, or those of
the logical tests that a report comes to before its sink refuses (`ReporterCall.stores`).
Whatever the calls, the reporter makes the requests of these stores, one after the other
(`Reporter.asks_runCalls`). So it analyses the classes that a store needs, each of them once,
and notes each fault once (`Reporter.analysed_once`).
-/

namespace TestCoverage

/-- The store needs the class: a record with a hit is of this version, and the catalog has the
class of the version under the record's name. -/
def ProbeStore.Needs (catalog : Catalog) (store : ProbeStore) (identity : ClassIdentity) : Prop :=
  ∃ record ∈ store.records, record.hits.any = true ∧
    ∃ definition, catalog.find? record.id = some definition ∧
      definition.name = record.hits.className ∧ definition.identity = identity

theorem LineMapper.mem_requests_iff {catalog : Catalog} {analyzer : Analyzer} {store : ProbeStore}
    {identity : ClassIdentity} :
    identity ∈ (requests catalog analyzer store).map ModelRequest.identity ↔
      store.Needs catalog identity := by
  unfold requests ProbeStore.Needs
  rw [List.map_filterMap, List.mem_filterMap]
  refine exists_congr fun record => and_congr_right fun _ => ?_
  unfold request?
  cases record.hits.any with
  | false => simp
  | true =>
    cases catalog.find? record.id with
    | none => simp
    | some definition =>
      by_cases hname : definition.name = record.hits.className
      · simp [hname, ModelRequest.identity]
      · simp [hname]

/-- The fault of an analysis. -/
def ReporterNotice.fault? : ReporterNotice → Option AnalysisFault
  | .omission cause => cause.fault?
  | .attribution _ | .unresolved _ => none

namespace PerTestWriter

/-- How many tests a report comes to that has written a text and goes on with some entries:
those for which the sink takes everything before them. -/
def reached (before : String) (sink : Sink) (entries : List TestCoverageEntry) : Nat :=
  (List.range entries.length).countP fun i =>
    (sink.writeText (before ++ testsText (entries.take i))).2

theorem reached_of_accepted {before : String} {sink next : Sink}
    (h : sink.writeText before = (next, true)) (entries : List TestCoverageEntry) :
    reached before sink entries = reached "" next entries := by
  unfold reached
  refine congrArg (fun p => List.countP p _) (funext fun i => ?_)
  rw [Sink.writeText_append h, String.empty_append]

theorem reached_of_refused {before : String} {sink next : Sink}
    (h : sink.writeText before = (next, false)) (entries : List TestCoverageEntry) :
    reached before sink entries = 0 := by
  unfold reached
  refine List.countP_eq_zero.mpr fun i _ => ?_
  rw [Sink.writeText_append_of_refused h]
  exact Bool.false_ne_true

theorem reached_cons (sink : Sink) (entry : TestCoverageEntry) (rest : List TestCoverageEntry) :
    reached "" sink (entry :: rest) = reached (Xml.render 1 entry.markup) sink rest + 1 := by
  have hfirst : (sink.writeText ("" ++ testsText ((entry :: rest).take 0))).2 = true := by
    rw [List.take_zero, String.empty_append]
    exact congrArg Prod.snd (Sink.writeText_empty sink)
  unfold reached
  rw [List.length_cons, List.range_succ_eq_map, List.countP_cons, List.countP_map, if_pos hfirst]
  refine congrArg (fun p => List.countP p _ + 1) (funext fun i => ?_)
  change (sink.writeText ("" ++ testsText (entry :: rest.take i))).2 = _
  rw [String.empty_append, testsText, List.map_cons, String.join_cons]
  rfl

end PerTestWriter

/-- A call on a reporter. -/
inductive ReporterCall where
  | coverage (store : ProbeStore)
  | report (executions : List Execution) (sink : Sink)
  | payload (bytes : Bytes) (provenance : String) (sink : Sink)

namespace Reporter

/-- The stores that a report of executions processes. -/
def reportStores (reporter : Reporter) (executions : List Execution) (sink : Sink) :
    List ProbeStore :=
  match MergedTests.ofExecutions executions with
  | none => []
  | some merged =>
    let entries := reporter.entries merged.tests
    (merged.tests.take (PerTestWriter.reached PerTestWriter.opening sink entries)).map (·.store)

/-- The stores that a call processes. -/
def stores (reporter : Reporter) : ReporterCall → List ProbeStore
  | .coverage store => [store]
  | .report executions sink => reporter.reportStores executions sink
  | .payload bytes provenance sink =>
    match Payload.decode bytes provenance with
    | .error _ => []
    | .ok dumps => reporter.reportStores (dumps.map Execution.ofDump) sink

/-- The reporter after a call, with what it notes. -/
def perform (reporter : Reporter) : ReporterCall → Reporter × List ReporterNotice
  | .coverage store => ((reporter.coverage store).1, (reporter.coverage store).2.1)
  | .report executions sink =>
    ((reporter.report executions sink).reporter, (reporter.report executions sink).notices)
  | .payload bytes provenance sink =>
    ((reporter.reportPayload bytes provenance sink).reporter,
      (reporter.reportPayload bytes provenance sink).notices)

/-- The reporter after some calls, with everything it notes. -/
def performAll (reporter : Reporter) : List ReporterCall → Reporter × List ReporterNotice
  | [] => (reporter, [])
  | call :: rest =>
    let (reporter, notices) := reporter.perform call
    let (reporter, more) := performAll reporter rest
    (reporter, notices ++ more)

/-- The next reporter has made the requests of the stores and noted the faults. -/
def AsksFor (stores : List ProbeStore) (reporter next : Reporter)
    (notices : List ReporterNotice) : Prop :=
  (LineMapper.Asks (stores.flatMap (LineMapper.requests reporter.catalog reporter.mapper.analyzer))
    reporter.mapper next.mapper (notices.filterMap ReporterNotice.fault?))

variable {reporter next last : Reporter} {notices more : List ReporterNotice}

theorem AsksFor.refl (reporter : Reporter) : reporter.AsksFor [] reporter [] :=
  LineMapper.Asks.refl reporter.mapper

theorem AsksFor.trans {stores others : List ProbeStore}
    (h : reporter.AsksFor stores next notices) (hmore : next.AsksFor others last more) :
    reporter.AsksFor (stores ++ others) last (notices ++ more) := by
  have hboth := LineMapper.Asks.trans h hmore
  unfold AsksFor
  rw [List.flatMap_append, List.filterMap_append]
  have hcatalog : next.catalog = reporter.catalog := h.catalog_eq
  rw [hcatalog, h.analyzer_eq] at hboth
  exact hboth

/-- Notices of other things do not matter. -/
theorem AsksFor.congr {stores : List ProbeStore} (h : reporter.AsksFor stores next notices)
    (hnotices : more.filterMap ReporterNotice.fault? = notices.filterMap ReporterNotice.fault?) :
    reporter.AsksFor stores next more := by
  unfold AsksFor
  rw [hnotices]
  exact h

theorem asksFor_coverage (reporter : Reporter) (store : ProbeStore) :
    reporter.AsksFor [store] (reporter.coverage store).1 (reporter.coverage store).2.1 := by
  have hmap := LineMapper.asks_map reporter.mapper store
  unfold AsksFor
  rw [List.flatMap_singleton]
  change LineMapper.Asks _ _ _ (List.filterMap _ (List.map ReporterNotice.omission _))
  rw [List.filterMap_map]
  exact hmap

/-! ## Reports -/

/-- Writing tests asks for the classes of those that are reached. -/
theorem asksFor_writeTests (tests : List LogicalTest) {run : Run}
    (hopened : run.writer.state = .opened) :
    let reached := PerTestWriter.reached "" run.writer.sink (run.reporter.entries tests)
    ∃ notices, (writeTests run tests).1.notices = run.notices ++ notices ∧
      run.reporter.AsksFor ((tests.take reached).map (·.store)) (writeTests run tests).1.reporter
        notices := by
  induction tests generalizing run with
  | nil => exact ⟨[], (List.append_nil _).symm, .refl _⟩
  | cons test rest ih =>
    have hentry := run.reporter.asksFor_coverage test.store
    dsimp only
    rw [entries, PerTestWriter.reached_cons, List.take_succ_cons, List.map_cons, writeTests]
    change run.reporter.AsksFor [test.store] (run.reporter.entry test).1
      (run.reporter.entry test).2.1 at hentry
    generalize run.reporter.entry test = answer at hentry ⊢
    obtain ⟨reporter, notices, entry⟩ := answer
    dsimp only at hentry ⊢
    cases hwritten : run.writer.sink.writeText (Xml.render 1 entry.markup) with
    | mk next accepted =>
      rw [PerTestWriter.writeTest_eq hopened hwritten]
      cases accepted with
      | false =>
        rw [PerTestWriter.reached_of_refused hwritten]
        exact ⟨notices, rfl, hentry⟩
      | true =>
        rw [PerTestWriter.reached_of_accepted hwritten]
        obtain ⟨more, hnotices, hasks⟩ := @ih ⟨reporter,
          ⟨next, run.writer.state, run.writer.tests + 1⟩, run.notices ++ notices⟩ hopened
        refine ⟨notices ++ more, hnotices.trans (List.append_assoc ..), ?_⟩
        exact hentry.trans hasks

theorem asksFor_reportMerged (reporter : Reporter) (merged : MergedTests) (sink : Sink) :
    let reached := PerTestWriter.reached PerTestWriter.opening sink (reporter.entries merged.tests)
    reporter.AsksFor ((merged.tests.take reached).map (·.store))
      (reporter.reportMerged merged sink).reporter (reporter.reportMerged merged sink).notices := by
  have hattribution : (merged.notices.map ReporterNotice.attribution).filterMap
      ReporterNotice.fault? = [] := by
    rw [List.filterMap_map]
    exact List.filterMap_eq_nil_iff.mpr fun _ _ => rfl
  dsimp only
  unfold reportMerged writeReport
  dsimp only
  cases hopening : sink.writeText PerTestWriter.opening with
  | mk next accepted =>
    have hbegin := @PerTestWriter.begin_eq (.fresh sink) next accepted rfl hopening
    rw [hbegin]
    cases accepted with
    | false =>
      rw [PerTestWriter.reached_of_refused hopening]
      exact (AsksFor.refl reporter).congr hattribution
    | true =>
      rw [PerTestWriter.reached_of_accepted hopening, if_pos rfl]
      dsimp only
      obtain ⟨notices, hnotices, hasks⟩ := @asksFor_writeTests merged.tests
        ⟨reporter, ⟨next, .opened, 0⟩, merged.notices.map .attribution⟩ rfl
      -- neither what was noted before nor the count of unresolved hooks is a fault
      have hfaults : ((merged.notices.map ReporterNotice.attribution ++ notices).filterMap
          ReporterNotice.fault?) = notices.filterMap ReporterNotice.fault? := by
        rw [List.filterMap_append, hattribution, List.nil_append]
      change AsksFor _ reporter _ _ at hasks
      dsimp only [PerTestWriter.fresh] at hnotices hasks ⊢
      generalize writeTests _ merged.tests = answer at hnotices hasks ⊢
      obtain ⟨run, outcome⟩ := answer
      dsimp only at hnotices hasks
      rw [← hnotices] at hfaults
      cases outcome with
      | error fault => exact hasks.congr hfaults
      | ok _ =>
        dsimp only
        generalize run.writer.close = closed
        obtain ⟨writer, outcome⟩ := closed
        cases outcome with
        | error fault => exact hasks.congr hfaults
        | ok _ =>
          dsimp only
          split
          · exact hasks.congr hfaults
          · refine hasks.congr ?_
            rw [List.filterMap_append, hfaults]
            exact List.append_nil _

theorem asksFor_report (reporter : Reporter) (executions : List Execution) (sink : Sink) :
    reporter.AsksFor (reporter.reportStores executions sink)
      (reporter.report executions sink).reporter (reporter.report executions sink).notices := by
  unfold reportStores report
  cases MergedTests.ofExecutions executions with
  | none => exact .refl reporter
  | some merged => exact reporter.asksFor_reportMerged merged sink

/-! ## Calls -/

theorem asksFor_perform (reporter : Reporter) (call : ReporterCall) :
    reporter.AsksFor (reporter.stores call) (reporter.perform call).1
      (reporter.perform call).2 := by
  cases call with
  | coverage store => exact reporter.asksFor_coverage store
  | report executions sink => exact reporter.asksFor_report executions sink
  | payload bytes provenance sink =>
    unfold stores perform reportPayload
    dsimp only
    cases Payload.decode bytes provenance with
    | error fault => exact .refl reporter
    | ok dumps => exact reporter.asksFor_report (dumps.map Execution.ofDump) sink

variable {catalog : Catalog} {analyzer : Analyzer}

theorem Reached.perform (h : Reached catalog analyzer reporter) (call : ReporterCall) :
    Reached catalog analyzer (reporter.perform call).1 := by
  cases call with
  | coverage store => exact .coverage store h
  | report executions sink => exact .report executions sink h
  | payload bytes provenance sink => exact .payload bytes provenance sink h

/-- All faithful reporters process the same stores. -/
theorem stores_eq (hkeyed : catalog.Keyed) {first second : Reporter}
    (hfirst : first.mapper.Faithful catalog analyzer)
    (hsecond : second.mapper.Faithful catalog analyzer) (call : ReporterCall) :
    first.stores call = second.stores call := by
  have hreport (executions : List Execution) (sink : Sink) :
      first.reportStores executions sink = second.reportStores executions sink := by
    unfold reportStores
    cases MergedTests.ofExecutions executions with
    | none => rfl
    | some merged =>
      dsimp only
      rw [entries_eq_map hkeyed hfirst hsecond, entries_eq_map hkeyed hsecond hsecond]
  cases call with
  | coverage store => rfl
  | report executions sink => exact hreport executions sink
  | payload bytes provenance sink =>
    unfold stores
    dsimp only
    split
    · rfl
    · exact hreport _ sink

/-- Some calls make the requests of the stores that they process. -/
theorem asksFor_performAll (hkeyed : catalog.Keyed) {fresh : Reporter}
    (hfresh : fresh.mapper.Faithful catalog analyzer) (calls : List ReporterCall)
    (h : Reached catalog analyzer reporter) :
    reporter.AsksFor (calls.flatMap fresh.stores) (reporter.performAll calls).1
      (reporter.performAll calls).2 := by
  induction calls generalizing reporter with
  | nil => exact .refl reporter
  | cons call rest ih =>
    have hfirst := reporter.asksFor_perform call
    rw [stores_eq hkeyed (h.faithful hkeyed) hfresh] at hfirst
    rw [List.flatMap_cons]
    exact hfirst.trans (ih (h.perform call))

/-- After any calls a reporter has analysed the classes that a processed store needs, each of
them once, and no others, and has noted each fault once. It knows what the requests of these
stores make known, and a request is answered with what the first request of its class identity
said. -/
theorem analysed_once (definitions : List ClassDefinition) (analyzer : Analyzer)
    (calls : List ReporterCall) :
    let catalog : Catalog := .ofList definitions
    let fresh : Reporter := ⟨.fresh catalog analyzer⟩
    let stores := calls.flatMap fresh.stores
    let memo := (fresh.performAll calls).1.memo
    let faults := (fresh.performAll calls).2.filterMap ReporterNotice.fault?
    memo = AnalysisMemo.empty.askAll (stores.flatMap (LineMapper.requests catalog analyzer)) ∧
    (∀ identity, identity ∈ memo.identities ↔ ∃ store ∈ stores, store.Needs catalog identity) ∧
    memo.identities.Nodup ∧ memo.runs = memo.identities.length ∧
    memo.size = memo.identities.length ∧
    (faults.map (·.identity)).Nodup ∧
    (∀ fault, fault ∈ faults ↔ memo.find? fault.identity = some (.error fault)) ∧
    ∀ requests request,
      let memo := AnalysisMemo.empty.askAll requests
      let identities := requests.map ModelRequest.identity
      memo.runs = identities.dedup.length ∧ memo.size = identities.dedup.length ∧
      (memo.ask request).2.1 =
        ((requests.find? (·.identity = request.identity)).getD request).outcome ∧
      if request.identity ∈ identities then
        (memo.ask request).1 = memo ∧ (memo.ask request).2.2 = none
      else
        (memo.ask request).1.runs = memo.runs + 1 ∧
          (memo.ask request).2.2 = request.fault? := by
  intro catalog fresh stores memo faults
  have hkeyed := Catalog.keyed_ofList definitions
  have hasks : fresh.AsksFor stores _ _ :=
    asksFor_performAll hkeyed (LineMapper.faithful_fresh catalog analyzer) calls .fresh
  have hmemo : memo = AnalysisMemo.empty.askAll
      (stores.flatMap (LineMapper.requests catalog analyzer)) := hasks.memo_eq
  have hcounted := AnalysisMemo.counted_empty.askAll
    (stores.flatMap (LineMapper.requests catalog analyzer))
  rw [← hmemo] at hcounted
  have hlength : memo.identities.length = memo.known.length := List.length_map _
  have hfaults : faults = _ := hasks.noted_eq
  refine ⟨hmemo, fun identity => ?_, hcounted.nodup, hcounted.runs.trans hlength.symm,
    hlength.symm, ?_, fun fault => ?_, fun requests request => ?_⟩
  · rw [hmemo, AnalysisMemo.mem_identities_iff, List.map_flatMap, List.mem_flatMap]
    simp only [LineMapper.mem_requests_iff]
  · rw [hfaults]
    exact AnalysisMemo.nodup_faults _ _
  · rw [hfaults, hmemo]
    exact AnalysisMemo.mem_faults_iff.trans (and_iff_right rfl)
  · obtain ⟨hruns, hsize⟩ := AnalysisMemo.runs_askAll requests
    exact ⟨hruns, hsize, AnalysisMemo.ask_askAll requests request⟩

end Reporter

end TestCoverage

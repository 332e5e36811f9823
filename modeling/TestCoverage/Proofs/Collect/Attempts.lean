import Mathlib
import TestCoverage.Proofs.Collect.Events
import TestCoverage.Proofs.Reporter

/-!
# Refused reports leave no trace

The collectors of a run share a reporter. Events come to the collectors, and now and then a
report is written (`Recording.Step`). When a sink refuses, the collector is what it was
before, and the reporter still maps every store as it did: it remembers more, but only what
its analyzer says anyway (`Recording.Alike`).

* `Recording.Alike.next`: two recordings that are alike answer a step alike and stay so.
* `Recording.Alike.next_of_refused`: a recording is like the one before a refused report.
* `Recording.reports_of_mem_history`: a written report is that of the executions it was handed.
* `Recording.trace_kept`: without the refused reports all other steps are answered as they
  were with them, and the written reports and what waits hold every finished test once.
-/

namespace TestCoverage

/-- The collectors of a run, with the reporter that writes their reports. -/
structure Recording where
  collectors : Collectors
  reporter : Reporter

namespace Recording

/-- What happens in a run. -/
inductive Step where
  /-- The listening collectors take an event. -/
  | event (listeners : Listeners) (event : TestEvent)
  /-- A per-test report goes to a sink. -/
  | reportTests (sink : Sink)
  /-- A report of the whole suite goes to a sink. -/
  | reportSuite (sink : Sink)

/-- What comes of a step. -/
inductive Reply where
  | taken
  | tests (sink : Sink) (outcome : Except ReportingFault (Option ReportSummary))
  | suite (sink : Sink) (outcome : Except WriteFailure (Option Session))

/-- The sink did not take the whole report. -/
def Reply.refused : Reply → Bool
  | .tests _ (.error (.report _)) => true
  | .suite _ (.error _) => true
  | _ => false

/-- What is seen of a step, apart from notices: its reply, and what waits for the reports
afterwards. -/
structure Seen where
  reply : Reply
  /-- The executions that wait. -/
  executions : Nat
  /-- The class versions that wait. -/
  versions : Nat

/-- The recording after a step, with the reply. -/
def perform (recording : Recording) : Step → Recording × Reply
  | .event listeners event =>
    ({ recording with collectors := (recording.collectors.take listeners event).1 }, .taken)
  | .reportTests sink =>
    let attempt := recording.collectors.perTest.dump recording.reporter sink
    (⟨{ recording.collectors with perTest := attempt.collector }, attempt.reporter⟩,
      .tests attempt.sink attempt.outcome)
  | .reportSuite sink =>
    let attempt := recording.collectors.suite.dump recording.reporter sink
    (⟨{ recording.collectors with suite := attempt.collector }, attempt.reporter⟩,
      .suite attempt.sink attempt.outcome)

def next (recording : Recording) (step : Step) : Recording := (recording.perform step).1

def seen (recording : Recording) (step : Step) : Seen :=
  let (after, reply) := recording.perform step
  ⟨reply, after.collectors.perTest.pending, after.collectors.suite.pending⟩

def run (recording : Recording) (steps : List Step) : Recording := steps.foldl next recording

/-- The steps, each with the recording before it. -/
def history : Recording → List Step → List (Recording × Step)
  | _, [] => []
  | recording, step :: rest => (recording, step) :: history (recording.next step) rest

/-- The steps, each with what is seen of it. -/
def trace (recording : Recording) (steps : List Step) : List (Step × Seen) :=
  (recording.history steps).map fun (before, step) => (step, before.seen step)

/-- The executions that a step hands to a report that is written. -/
def handed (recording : Recording) : Step → List Execution
  | .event _ _ => []
  | .reportTests sink =>
    match (recording.collectors.perTest.dump recording.reporter sink).outcome with
    | .ok _ => recording.collectors.perTest.drain.2
    | .error _ => []
  | .reportSuite _ => []

/-- The executions of all per-test reports that are written, in order. -/
def reported (recording : Recording) (steps : List Step) : List Execution :=
  (recording.history steps).flatMap fun (before, step) => before.handed step

/-- The events that the collector of per-test coverage takes. -/
def perTestEvents (steps : List Step) : List TestEvent :=
  steps.filterMap fun
    | .event listeners event => if listeners.perTest then some event else none
    | .reportTests _ => none
    | .reportSuite _ => none

end Recording

/-! ## One report -/

/-- What a sink holds afterwards, and the summary, are those of the reporter's report of some
executions. There is no report, and nothing is written, if there are no executions. -/
def Reporter.Reports (reporter : Reporter) (executions : List Execution) (sink after : Sink) :
    Option ReportSummary → Prop
  | none => executions = [] ∧ after = sink
  | some summary => executions ≠ [] ∧ (reporter.report executions sink).sink = after ∧
      (reporter.report executions sink).outcome = .ok summary

variable {catalog : Catalog} {analyzer : Analyzer}

theorem Reporter.Reports.congr (hkeyed : catalog.Keyed) {first second : Reporter}
    (hfirst : first.mapper.Faithful catalog analyzer)
    (hsecond : second.mapper.Faithful catalog analyzer) {executions : List Execution}
    {sink after : Sink} {summary? : Option ReportSummary}
    (h : first.Reports executions sink after summary?) :
    second.Reports executions sink after summary? := by
  cases summary? with
  | none => exact h
  | some summary =>
    obtain ⟨hsink, houtcome⟩ := Reporter.report_eq hkeyed hfirst hsecond executions sink
    obtain ⟨hne, hafter, hsummary⟩ := h
    exact ⟨hne, hsink ▸ hafter, houtcome ▸ hsummary⟩

namespace PerTestCollector

/-- What is taken out is put back unless the report is written. -/
theorem dump_collector (collector : PerTestCollector) (reporter : Reporter) (sink : Sink) :
    (collector.dump reporter sink).collector =
      match (collector.dump reporter sink).outcome with
      | .ok _ => collector.drain.1
      | .error _ => collector := by
  unfold dump
  dsimp only [drain]
  split
  · rfl
  · split
    · rfl
    · rw [restore, List.append_nil]

/-- A report that is written holds the executions that are taken out. -/
theorem reports_of_dump {collector : PerTestCollector} {reporter : Reporter} {sink : Sink}
    {summary? : Option ReportSummary} (h : (collector.dump reporter sink).outcome = .ok summary?) :
    reporter.Reports collector.executions sink (collector.dump reporter sink).sink summary? := by
  unfold dump at h ⊢
  dsimp only [drain] at h ⊢
  split
  · next hempty =>
    rw [if_pos hempty] at h
    obtain rfl := Except.ok.inj h
    exact ⟨List.isEmpty_iff.mp hempty, rfl⟩
  · next hsome =>
    rw [if_neg hsome] at h
    cases houtcome : (reporter.report collector.executions sink).outcome with
    | ok summary =>
      rw [houtcome] at h
      obtain rfl := Except.ok.inj h
      exact ⟨fun hnil => hsome (List.isEmpty_iff.mpr hnil), rfl, houtcome⟩
    | error fault =>
      rw [houtcome] at h
      cases h

theorem faithful_dump (hkeyed : catalog.Keyed) (collector : PerTestCollector)
    {reporter : Reporter} (h : reporter.mapper.Faithful catalog analyzer) (sink : Sink) :
    (collector.dump reporter sink).reporter.mapper.Faithful catalog analyzer := by
  unfold dump
  dsimp only [drain]
  split
  · exact h
  · split <;> exact Reporter.faithful_report hkeyed h collector.executions sink

/-- All faithful reporters write the same report of a collector. -/
theorem dump_eq (hkeyed : catalog.Keyed) (collector : PerTestCollector) {first second : Reporter}
    (hfirst : first.mapper.Faithful catalog analyzer)
    (hsecond : second.mapper.Faithful catalog analyzer) (sink : Sink) :
    (collector.dump first sink).sink = (collector.dump second sink).sink ∧
      (collector.dump first sink).outcome = (collector.dump second sink).outcome := by
  unfold dump
  dsimp only [drain]
  split
  · exact ⟨rfl, rfl⟩
  · obtain ⟨hsink, houtcome⟩ := Reporter.report_eq hkeyed hfirst hsecond collector.executions sink
    rw [← houtcome]
    split <;> exact ⟨hsink, rfl⟩

end PerTestCollector

namespace SuiteCollector

theorem absorb_empty (collector : SuiteCollector) : (empty.absorb collector).1 = collector := by
  have hstore : (ProbeStore.empty.merge collector.store).1 = collector.store := by
    refine ProbeStore.ext_find? fun id => ?_
    rw [ProbeStore.find?_merge]
    rfl
  exact congrArg (SuiteCollector.mk collector.sessions) hstore

theorem dump_collector (collector : SuiteCollector) (reporter : Reporter) (sink : Sink) :
    (collector.dump reporter sink).collector =
      match (collector.dump reporter sink).outcome with
      | .ok _ => empty
      | .error _ => collector := by
  unfold dump
  dsimp only [drain]
  split
  · rfl
  · split
    · rfl
    · exact absorb_empty collector

theorem faithful_dump (hkeyed : catalog.Keyed) (collector : SuiteCollector)
    {reporter : Reporter} (h : reporter.mapper.Faithful catalog analyzer) (sink : Sink) :
    (collector.dump reporter sink).reporter.mapper.Faithful catalog analyzer := by
  unfold dump
  dsimp only [drain]
  split
  · exact h
  · split <;> exact (h.map hkeyed collector.store).1

/-- All faithful reporters write the same report of a collector. -/
theorem dump_eq (hkeyed : catalog.Keyed) (collector : SuiteCollector) {first second : Reporter}
    (hfirst : first.mapper.Faithful catalog analyzer)
    (hsecond : second.mapper.Faithful catalog analyzer) (sink : Sink) :
    (collector.dump first sink).sink = (collector.dump second sink).sink ∧
      (collector.dump first sink).outcome = (collector.dump second sink).outcome := by
  unfold dump
  dsimp only [drain]
  split
  · exact ⟨rfl, rfl⟩
  · rw [Reporter.coverage_eq hkeyed hfirst hsecond]
    generalize sink.writeDocument _ = written
    obtain ⟨after, outcome⟩ := written
    cases outcome <;> exact ⟨rfl, rfl⟩

end SuiteCollector

namespace Recording

theorem Reply.refused_tests_iff {sink : Sink}
    {outcome : Except ReportingFault (Option ReportSummary)} :
    (Reply.tests sink outcome).refused = true ↔ ∃ fault, outcome = .error (.report fault) := by
  cases outcome with
  | ok summary => simp [refused]
  | error fault => cases fault <;> simp [refused]

theorem Reply.refused_suite_iff {sink : Sink} {outcome : Except WriteFailure (Option Session)} :
    (Reply.suite sink outcome).refused = true ↔ ∃ failure, outcome = .error failure := by
  cases outcome <;> simp [refused]

/-! ## Recordings that are alike -/

/-- The recordings have collected the same, and their reporters know only what the analyzer
says. -/
structure Alike (catalog : Catalog) (analyzer : Analyzer) (first second : Recording) : Prop where
  collectors_eq : first.collectors = second.collectors
  first_faithful : first.reporter.mapper.Faithful catalog analyzer
  second_faithful : second.reporter.mapper.Faithful catalog analyzer

variable {first second : Recording} {step : Step}

theorem faithful_next (hkeyed : catalog.Keyed)
    (h : first.reporter.mapper.Faithful catalog analyzer) (step : Step) :
    (first.next step).reporter.mapper.Faithful catalog analyzer := by
  cases step with
  | event listeners event => exact h
  | reportTests sink => exact PerTestCollector.faithful_dump hkeyed _ h sink
  | reportSuite sink => exact SuiteCollector.faithful_dump hkeyed _ h sink

/-- A refused report changes nothing that is collected. -/
theorem collectors_next_of_refused (h : (first.seen step).reply.refused = true) :
    (first.next step).collectors = first.collectors := by
  cases step with
  | event listeners event => cases h
  | reportTests sink =>
    obtain ⟨fault, hfault⟩ := Reply.refused_tests_iff.mp h
    have hcollector := first.collectors.perTest.dump_collector first.reporter sink
    rw [hfault] at hcollector
    exact congrArg (fun perTest => { first.collectors with perTest }) hcollector
  | reportSuite sink =>
    obtain ⟨failure, hfailure⟩ := Reply.refused_suite_iff.mp h
    have hcollector := first.collectors.suite.dump_collector first.reporter sink
    rw [hfailure] at hcollector
    exact congrArg (fun suite => { first.collectors with suite }) hcollector

theorem Alike.next_of_refused (hkeyed : catalog.Keyed) (h : Alike catalog analyzer first second)
    (hrefused : (first.seen step).reply.refused = true) :
    Alike catalog analyzer (first.next step) second :=
  ⟨(collectors_next_of_refused hrefused).trans h.collectors_eq,
    faithful_next hkeyed h.first_faithful step, h.second_faithful⟩

/-- Recordings that are alike show the same of a step. -/
theorem Alike.perform (hkeyed : catalog.Keyed) (h : Alike catalog analyzer first second)
    (step : Step) :
    (first.next step).collectors = (second.next step).collectors ∧
      (first.seen step).reply = (second.seen step).reply := by
  obtain ⟨collectors, reporter⟩ := first
  obtain ⟨others, other⟩ := second
  obtain ⟨rfl, hfirst, hsecond⟩ := h
  -- only the reporters differ, and these answer alike
  cases step with
  | event listeners event => exact ⟨rfl, rfl⟩
  | reportTests sink =>
    obtain ⟨hsink, houtcome⟩ := collectors.perTest.dump_eq hkeyed hfirst hsecond sink
    have hcollector : (collectors.perTest.dump reporter sink).collector =
        (collectors.perTest.dump other sink).collector := by
      rw [PerTestCollector.dump_collector, PerTestCollector.dump_collector, houtcome]
    exact ⟨congrArg (fun perTest => { collectors with perTest }) hcollector,
      congrArg₂ Reply.tests hsink houtcome⟩
  | reportSuite sink =>
    obtain ⟨hsink, houtcome⟩ := collectors.suite.dump_eq hkeyed hfirst hsecond sink
    have hcollector : (collectors.suite.dump reporter sink).collector =
        (collectors.suite.dump other sink).collector := by
      rw [SuiteCollector.dump_collector, SuiteCollector.dump_collector, houtcome]
    exact ⟨congrArg (fun suite => { collectors with suite }) hcollector,
      congrArg₂ Reply.suite hsink houtcome⟩

theorem Alike.next (hkeyed : catalog.Keyed) (h : Alike catalog analyzer first second)
    (step : Step) :
    Alike catalog analyzer (first.next step) (second.next step) ∧
      first.seen step = second.seen step := by
  obtain ⟨hcollectors, hreply⟩ := h.perform hkeyed step
  have hseen (recording : Recording) : recording.seen step =
      ⟨(recording.seen step).reply, (recording.next step).collectors.perTest.pending,
        (recording.next step).collectors.suite.pending⟩ := rfl
  refine ⟨⟨hcollectors, faithful_next hkeyed h.first_faithful step,
    faithful_next hkeyed h.second_faithful step⟩, ?_⟩
  rw [hseen first, hseen second, hcollectors, hreply]

/-- A recording that only sees the steps that are not refused shows the same of them. -/
theorem Alike.trace (hkeyed : catalog.Keyed) (h : Alike catalog analyzer first second)
    (steps : List Step) :
    let kept := (first.trace steps).filter fun (_, seen) => !seen.reply.refused
    second.trace (kept.map (·.1)) = kept := by
  induction steps generalizing first second with
  | nil => rfl
  | cons step rest ih =>
    have htrace (recording : Recording) (steps : List Step) :
        recording.trace (step :: steps) =
          (step, recording.seen step) :: (recording.next step).trace steps := rfl
    dsimp only
    rw [htrace, List.filter_cons]
    cases hrefused : (first.seen step).reply.refused with
    | true =>
      -- the step is left out, so the second recording stays where it is
      exact ih (h.next_of_refused hkeyed hrefused)
    | false =>
      obtain ⟨hnext, hseen⟩ := h.next hkeyed step
      simp only [Bool.not_false, if_true, List.map_cons, htrace]
      rw [ih hnext, hseen]

/-! ## What the reports hold -/

theorem history_snoc (recording : Recording) (steps : List Step) (step : Step) :
    recording.history (steps ++ [step]) =
      recording.history steps ++ [(recording.run steps, step)] := by
  induction steps generalizing recording with
  | nil => rfl
  | cons first rest ih => exact congrArg (_ :: ·) (ih (recording.next first))

theorem reported_snoc (recording : Recording) (steps : List Step) (step : Step) :
    recording.reported (steps ++ [step]) =
      recording.reported steps ++ (recording.run steps).handed step := by
  rw [reported, history_snoc, List.flatMap_append, List.flatMap_singleton]
  rfl

theorem run_snoc (recording : Recording) (steps : List Step) (step : Step) :
    recording.run (steps ++ [step]) = (recording.run steps).next step :=
  List.foldl_append ..

theorem handed_of_ok {recording : Recording} {sink : Sink} {summary? : Option ReportSummary}
    (h : (recording.collectors.perTest.dump recording.reporter sink).outcome = .ok summary?) :
    recording.handed (.reportTests sink) = recording.collectors.perTest.executions := by
  simp only [handed, h, PerTestCollector.drain]

theorem perTestEvents_snoc (steps : List Step) (step : Step) :
    perTestEvents (steps ++ [step]) = perTestEvents steps ++ perTestEvents [step] :=
  List.filterMap_append

theorem perTestEvents_event (listeners : Listeners) (event : TestEvent) :
    perTestEvents [.event listeners event] = if listeners.perTest then [event] else [] := by
  by_cases hlistens : listeners.perTest = true <;> simp [perTestEvents, hlistens]

/-- The executions of the written reports and those that wait are the ones of the events. -/
structure Accounts (recording : Recording) (events : List TestEvent) (written : List Execution) :
    Prop where
  knows : recording.collectors.perTest.Knows events
  executions_eq :
    written ++ recording.collectors.perTest.executions = TestEvent.executions events

variable {recording : Recording} {events : List TestEvent} {written : List Execution}

theorem Accounts.event (h : recording.Accounts events written) (listeners : Listeners)
    (event : TestEvent) :
    (recording.next (.event listeners event)).Accounts
      (events ++ perTestEvents [.event listeners event]) written := by
  have hcollector : (recording.next (.event listeners event)).collectors.perTest = _ :=
    recording.collectors.perTest_take listeners event
  rw [perTestEvents_event]
  split at hcollector
  · next hlistens =>
    obtain ⟨hknows, hexecutions⟩ := h.knows.take event
    rw [if_pos hlistens]
    refine ⟨hcollector ▸ hknows, ?_⟩
    rw [hcollector, hexecutions, TestEvent.executions_snoc, ← h.executions_eq,
      List.append_assoc]
  · next hlistens =>
    rw [if_neg hlistens, List.append_nil]
    exact ⟨hcollector ▸ h.knows, hcollector ▸ h.executions_eq⟩

/-- What a report takes is written, or is put back. -/
theorem Accounts.reportTests (h : recording.Accounts events written) (sink : Sink) :
    (recording.next (.reportTests sink)).Accounts events
      (written ++ recording.handed (.reportTests sink)) := by
  have hcollector : (recording.next (.reportTests sink)).collectors.perTest = _ :=
    recording.collectors.perTest.dump_collector recording.reporter sink
  cases houtcome : (recording.collectors.perTest.dump recording.reporter sink).outcome with
  | ok summary =>
    rw [houtcome] at hcollector
    refine ⟨hcollector ▸ h.knows, ?_⟩
    rw [hcollector, handed_of_ok houtcome, ← h.executions_eq]
    exact List.append_nil _
  | error fault =>
    rw [houtcome] at hcollector
    have hhanded : recording.handed (.reportTests sink) = [] := by
      simp only [handed, houtcome]
    rw [hhanded, List.append_nil]
    exact ⟨hcollector ▸ h.knows, hcollector ▸ h.executions_eq⟩

theorem Accounts.next (h : recording.Accounts events written) (step : Step) :
    (recording.next step).Accounts (events ++ perTestEvents [step])
      (written ++ recording.handed step) := by
  cases step with
  | event listeners event => exact (List.append_nil written).symm ▸ h.event listeners event
  | reportTests sink => exact (List.append_nil events).symm ▸ h.reportTests sink
  | reportSuite sink =>
    exact (List.append_nil events).symm ▸ (List.append_nil written).symm ▸
      ⟨h.knows, h.executions_eq⟩

/-- The written reports and what waits hold the finished tests. -/
theorem accounts_run (hempty : recording.collectors.perTest = .empty) (steps : List Step) :
    (recording.run steps).Accounts (perTestEvents steps) (recording.reported steps) := by
  induction steps using List.reverseRecOn with
  | nil =>
    refine ⟨?_, ?_⟩
    · rw [run, List.foldl_nil, hempty]
      exact PerTestCollector.knows_empty
    · rw [run, List.foldl_nil, hempty]
      rfl
  | append_singleton steps step ih =>
    rw [run_snoc, perTestEvents_snoc, reported_snoc]
    exact ih.next step

theorem faithful_of_mem_history (hkeyed : catalog.Keyed)
    (h : recording.reporter.mapper.Faithful catalog analyzer) {steps : List Step}
    {before : Recording} {step : Step} (hmem : (before, step) ∈ recording.history steps) :
    before.reporter.mapper.Faithful catalog analyzer := by
  induction steps generalizing recording with
  | nil => cases hmem
  | cons first rest ih =>
    rcases List.mem_cons.mp hmem with heq | hmem
    · obtain ⟨rfl, rfl⟩ := Prod.mk.inj heq
      exact h
    · exact ih (faithful_next hkeyed h first) hmem

/-- A per-test report that is written during a run is the one that the reporter at its beginning
writes of the executions that are handed over. -/
theorem reports_of_mem_history (hkeyed : catalog.Keyed)
    (h : recording.reporter.mapper.Faithful catalog analyzer) {steps : List Step}
    {before : Recording} {sink after : Sink} {summary? : Option ReportSummary}
    (hmem : (before, .reportTests sink) ∈ recording.history steps)
    (hreply : (before.seen (.reportTests sink)).reply = .tests after (.ok summary?)) :
    recording.reporter.Reports (before.handed (.reportTests sink)) sink after summary? := by
  obtain ⟨hafter, houtcome⟩ := Reply.tests.inj hreply
  have hreports := PerTestCollector.reports_of_dump houtcome
  rw [hafter] at hreports
  rw [handed_of_ok houtcome]
  exact hreports.congr hkeyed (faithful_of_mem_history hkeyed h hmem) h

/-- Without the reports that sinks refuse, every other step shows what it showed with them. The
executions of the written per-test reports, one report after the other, and then those that wait
are the finished tests in the order of their arrival. What is written is the report of the
executions that are handed over. -/
theorem trace_kept {definitions : List ClassDefinition} {analyzer : Analyzer}
    {reporter : Reporter} (hreached : Reporter.Reached (.ofList definitions) analyzer reporter)
    (moduleName : Option String) (steps : List Step) :
    let start : Recording := ⟨.empty moduleName, reporter⟩
    let kept := (start.trace steps).filter fun (_, seen) => !seen.reply.refused
    start.trace (kept.map (·.1)) = kept ∧
      start.reported steps ++ (start.run steps).collectors.perTest.executions =
        TestEvent.executions (perTestEvents steps) ∧
      ∀ before sink after summary?, (before, Step.reportTests sink) ∈ start.history steps →
        (before.seen (.reportTests sink)).reply = .tests after (.ok summary?) →
          reporter.Reports (before.handed (.reportTests sink)) sink after summary? := by
  intro start kept
  have hkeyed := Catalog.keyed_ofList definitions
  have hfaithful := hreached.faithful hkeyed
  have halike : Alike (.ofList definitions) analyzer start start := ⟨rfl, hfaithful, hfaithful⟩
  refine ⟨halike.trace hkeyed steps, (accounts_run rfl steps).executions_eq, ?_⟩
  intro before sink after summary? hmem hreply
  exact reports_of_mem_history hkeyed hfaithful hmem hreply

/-- A test is reported once, although the first sink has no room. -/
theorem trace_kept_full_sink :
    let start : Recording := ⟨.empty none, ⟨.fresh (.ofList []) fun _ => .error []⟩⟩
    let finish : Step := .event .all (.finished (.ofId "A/t") .passed [] .zero)
    let full : Step := .reportTests (.fresh (some 0))
    let roomy : Step := .reportTests (.fresh none)
    let before := (start.next finish).next full
    let execution : Execution := ⟨"A/t", .test "A", .passed, none, .ofSession ⟨"A/t", 0, 0⟩⟩
    start.trace [finish, roomy] = [(finish, start.seen finish), (roomy, before.seen roomy)] ∧
      start.reported [finish, full, roomy] ++
          (start.run [finish, full, roomy]).collectors.perTest.executions = [execution] ∧
      before.handed roomy = [execution] ∧
      ∃ after, (before.seen roomy).reply = .tests after (.ok (some ⟨1, []⟩)) ∧
        start.reporter.Reports [execution] (.fresh none) after (some ⟨1, []⟩) := by
  intro start finish full roomy before execution
  have hfinished : TestEvent.executions (perTestEvents [finish]) = [execution] := by cbv
  have hreached : Reporter.Reached (.ofList []) (fun _ => .error []) start.reporter := .fresh
  have hstart : (⟨.empty none, start.reporter⟩ : Recording) = start := rfl
  obtain ⟨htrace, hreported, hwritten⟩ := trace_kept hreached none [finish, full, roomy]
  have hfinish : (start.seen finish).reply.refused = false := rfl
  have hfull : ((start.next finish).seen full).reply.refused = true := by decide +kernel
  have hroomy : (before.seen roomy).reply.refused = false := by decide +kernel
  have hkept : ((start.trace [finish, full, roomy]).filter fun (_, seen) => !seen.reply.refused) =
      [(finish, start.seen finish), (roomy, before.seen roomy)] := by
    simp [trace, history, hfinish, hfull, hroomy, before]
  have houtcome : (before.collectors.perTest.dump before.reporter (.fresh none)).outcome =
      .ok (some ⟨1, []⟩) := by decide +kernel
  have hwaiting : before.collectors.perTest.executions = [execution] := by
    rw [collectors_next_of_refused hfull]
    exact (@accounts_run start rfl [finish]).executions_eq.trans hfinished
  have hmem : (before, roomy) ∈ start.history [finish, full, roomy] :=
    List.mem_cons_of_mem _ (List.mem_cons_of_mem _ List.mem_cons_self)
  have hreply := congrArg (Reply.tests
    (before.collectors.perTest.dump before.reporter (.fresh none)).sink) houtcome
  have hreports := hwritten before (.fresh none) _ _ hmem hreply
  have hhanded : before.handed roomy = [execution] := (handed_of_ok houtcome).trans hwaiting
  have hevents : perTestEvents [finish, full, roomy] = perTestEvents [finish] := rfl
  rw [hkept] at htrace
  rw [hstart, hevents, hfinished] at hreported
  rw [hhanded] at hreports
  exact ⟨htrace, hreported, hhanded, _, hreply, hreports⟩

end Recording

end TestCoverage

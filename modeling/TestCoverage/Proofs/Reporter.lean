import Mathlib
import TestCoverage.Reporter
import TestCoverage.Proofs.Analysis.LineMapper
import TestCoverage.Proofs.Attribution.Contributions
import TestCoverage.Proofs.Attribution.Gathering
import TestCoverage.Proofs.Report.PerTest

/-!
# What a report says

A report consists of one entry for each logical test (`Reporter.entries`), which a reporter writes
as a writer of reports writes any entries (`Reporter.writeReport_eq_writeAll`). So the sink gets of
them what there is room for (`Reporter.report_writes`), and two reports come to the same, even where
the sink refuses, as soon as their entries and their unresolved hooks are the same
(`Reporter.reportMerged_congr`).

A reporter stays faithful to its catalog and its analyzer whatever it did before
(`Reporter.Reached.faithful`). So the lines of an entry are those that the contributing executions
prove (`Reporter.report_lines`).
-/

namespace TestCoverage.Reporter

/-- The reporters that come from a fresh one by mapping stores and by writing reports. -/
inductive Reached (catalog : Catalog) (analyzer : Analyzer) : Reporter → Prop where
  | fresh : Reached catalog analyzer ⟨.fresh catalog analyzer⟩
  | coverage {reporter : Reporter} (store : ProbeStore) :
      Reached catalog analyzer reporter → Reached catalog analyzer (reporter.coverage store).1
  | report {reporter : Reporter} (executions : List Execution) (sink : Sink) :
      Reached catalog analyzer reporter →
        Reached catalog analyzer (reporter.report executions sink).reporter
  | payload {reporter : Reporter} (bytes : Bytes) (provenance : String) (sink : Sink) :
      Reached catalog analyzer reporter →
        Reached catalog analyzer (reporter.reportPayload bytes provenance sink).reporter

/-- What a report says of some tests, one after the other. -/
def entries : Reporter → List LogicalTest → List TestCoverageEntry
  | _, [] => []
  | reporter, test :: rest => (reporter.entry test).2.2 :: entries (reporter.entry test).1 rest

/-! ## Faithful reporters -/

variable {catalog : Catalog} {analyzer : Analyzer}

theorem faithful_writeTests (hkeyed : catalog.Keyed) (tests : List LogicalTest) {run : Run}
    (h : run.reporter.mapper.Faithful catalog analyzer) :
    (writeTests run tests).1.reporter.mapper.Faithful catalog analyzer := by
  induction tests generalizing run with
  | nil => exact h
  | cons test rest ih =>
    have hentry : (run.reporter.entry test).1.mapper.Faithful catalog analyzer :=
      (h.map hkeyed test.store).1
    rw [writeTests]
    generalize run.reporter.entry test = answer at hentry
    obtain ⟨reporter, notices, entry⟩ := answer
    dsimp only
    split
    · exact ih hentry
    · exact hentry

theorem faithful_writeReport (hkeyed : catalog.Keyed) (tests : List LogicalTest) {run : Run}
    (h : run.reporter.mapper.Faithful catalog analyzer) :
    (writeReport run tests).1.reporter.mapper.Faithful catalog analyzer := by
  unfold writeReport
  split
  · exact h
  · next writer hbegin =>
    have htests : (writeTests { run with writer } tests).1.reporter.mapper.Faithful catalog
        analyzer :=
      faithful_writeTests hkeyed tests h
    generalize writeTests { run with writer } tests = answer at htests
    obtain ⟨run, outcome⟩ := answer
    cases outcome <;> exact htests

theorem faithful_reportMerged (hkeyed : catalog.Keyed) {reporter : Reporter}
    (h : reporter.mapper.Faithful catalog analyzer) (merged : MergedTests) (sink : Sink) :
    (reporter.reportMerged merged sink).reporter.mapper.Faithful catalog analyzer := by
  have hstart : (⟨reporter, .fresh sink, merged.notices.map .attribution⟩ :
      Run).reporter.mapper.Faithful catalog analyzer := h
  have hrun := faithful_writeReport hkeyed merged.tests hstart
  unfold reportMerged
  dsimp only
  generalize writeReport _ merged.tests = answer at hrun
  obtain ⟨run, outcome⟩ := answer
  cases outcome <;> exact hrun

theorem faithful_report (hkeyed : catalog.Keyed) {reporter : Reporter}
    (h : reporter.mapper.Faithful catalog analyzer) (executions : List Execution) (sink : Sink) :
    (reporter.report executions sink).reporter.mapper.Faithful catalog analyzer := by
  unfold report
  split
  · exact h
  · exact faithful_reportMerged hkeyed h _ sink

/-- A reporter knows only what its analyzer says, whatever it did before. -/
theorem Reached.faithful (hkeyed : catalog.Keyed) {reporter : Reporter}
    (h : Reached catalog analyzer reporter) : reporter.mapper.Faithful catalog analyzer := by
  induction h with
  | fresh => exact LineMapper.faithful_fresh catalog analyzer
  | coverage store _ ih => exact (ih.map hkeyed store).1
  | report executions sink _ ih => exact faithful_report hkeyed ih executions sink
  | payload bytes provenance sink _ ih =>
    unfold reportPayload
    split
    · exact ih
    · exact faithful_report hkeyed ih _ sink

theorem records_coverage_iff (hkeyed : catalog.Keyed) {reporter : Reporter}
    (h : reporter.mapper.Faithful catalog analyzer) (store : ProbeStore) (path : String)
    (line : Line) :
    (reporter.coverage store).2.2.Records path line ↔ store.Proves catalog analyzer path line :=
  (h.map hkeyed store).2.1 path line

theorem lined_coverage (hkeyed : catalog.Keyed) {reporter : Reporter}
    (h : reporter.mapper.Faithful catalog analyzer) (store : ProbeStore) :
    (reporter.coverage store).2.2.Lined :=
  (h.map hkeyed store).2.2

theorem coverage_eq (hkeyed : catalog.Keyed) {first second : Reporter}
    (hfirst : first.mapper.Faithful catalog analyzer)
    (hsecond : second.mapper.Faithful catalog analyzer) (store : ProbeStore) :
    (first.coverage store).2.2 = (second.coverage store).2.2 :=
  hfirst.coverage_eq hkeyed hsecond store

/-- What a report says of tests is what any faithful reporter says of each of them. -/
theorem entries_eq_map (hkeyed : catalog.Keyed) {reporter other : Reporter}
    (h : reporter.mapper.Faithful catalog analyzer)
    (hother : other.mapper.Faithful catalog analyzer) (tests : List LogicalTest) :
    reporter.entries tests = tests.map fun test => (other.entry test).2.2 := by
  induction tests generalizing reporter with
  | nil => rfl
  | cons test rest ih =>
    have hentry : (reporter.entry test).2.2 = (other.entry test).2.2 :=
      congrArg (TestCoverageEntry.mk test.id test.duration test.result)
        (coverage_eq hkeyed h hother test.store)
    have hnext : (reporter.entry test).1.mapper.Faithful catalog analyzer :=
      (h.map hkeyed test.store).1
    exact congrArg₂ List.cons hentry (ih hnext)

theorem map_entries (reporter : Reporter) (tests : List LogicalTest) :
    (reporter.entries tests).map (fun entry => (entry.id, entry.duration, entry.result)) =
      tests.map fun test => (test.id, test.duration, test.result) := by
  induction tests generalizing reporter with
  | nil => rfl
  | cons test rest ih => exact congrArg (_ :: ·) (ih _)

/-- An entry records the lines that the store of its test proves. -/
theorem exists_test_of_mem_entries (hkeyed : catalog.Keyed) {tests : List LogicalTest}
    {reporter : Reporter} (h : reporter.mapper.Faithful catalog analyzer)
    {entry : TestCoverageEntry} (hentry : entry ∈ reporter.entries tests) :
    ∃ test ∈ tests, entry.id = test.id ∧
      ∀ path line, entry.coverage.Records path line ↔
        test.store.Proves catalog analyzer path line := by
  rw [entries_eq_map hkeyed h h] at hentry
  obtain ⟨test, htest, rfl⟩ := List.mem_map.mp hentry
  exact ⟨test, htest, rfl, records_coverage_iff hkeyed h test.store⟩

/-! ## Writing -/

theorem writeTests_eq_entries (tests : List LogicalTest) (run : Run) :
    ((writeTests run tests).1.writer, (writeTests run tests).2) =
      run.writer.writeTests (run.reporter.entries tests) := by
  induction tests generalizing run with
  | nil => rfl
  | cons test rest ih =>
    rw [entries, PerTestWriter.writeTests, writeTests]
    generalize run.reporter.entry test = answer
    obtain ⟨reporter, notices, entry⟩ := answer
    dsimp only
    generalize run.writer.writeTest entry = written
    obtain ⟨writer, outcome⟩ := written
    cases outcome with
    | error fault => rfl
    | ok _ => exact ih ⟨reporter, writer, run.notices ++ notices⟩

/-- A reporter writes its entries as a writer of reports does. -/
theorem writeReport_eq_writeAll (tests : List LogicalTest) (run : Run) :
    ((writeReport run tests).1.writer, (writeReport run tests).2) =
      run.writer.writeAll (run.reporter.entries tests) := by
  unfold writeReport PerTestWriter.writeAll
  generalize run.writer.begin = begun
  obtain ⟨writer, outcome⟩ := begun
  cases outcome with
  | error fault => rfl
  | ok _ =>
    have htests := writeTests_eq_entries tests { run with writer }
    dsimp only at htests ⊢
    rw [← htests]
    generalize writeTests { run with writer } tests = answer
    obtain ⟨after, outcome⟩ := answer
    cases outcome <;> rfl

/-- What comes of a report depends on the entries and on the unresolved hooks only. -/
theorem reportMerged_congr {first second : Reporter} {merged other : MergedTests}
    (hentries : first.entries merged.tests = second.entries other.tests)
    (hunresolved : merged.unresolved = other.unresolved) (sink : Sink) :
    (first.reportMerged merged sink).sink = (second.reportMerged other sink).sink ∧
      (first.reportMerged merged sink).outcome = (second.reportMerged other sink).outcome := by
  have hfirst := writeReport_eq_writeAll merged.tests
    ⟨first, .fresh sink, merged.notices.map .attribution⟩
  have hsecond := writeReport_eq_writeAll other.tests
    ⟨second, .fresh sink, other.notices.map .attribution⟩
  dsimp only at hfirst hsecond
  have hsame := hfirst.trans ((congrArg _ hentries).trans hsecond.symm)
  unfold reportMerged
  dsimp only
  generalize writeReport _ merged.tests = answer at hsame ⊢
  generalize writeReport _ other.tests = answer' at hsame ⊢
  obtain ⟨run, outcome⟩ := answer
  obtain ⟨run', outcome'⟩ := answer'
  obtain ⟨hwriter, rfl⟩ := Prod.mk.inj hsame
  dsimp only at hwriter
  cases outcome with
  | error fault => exact ⟨congrArg PerTestWriter.sink hwriter, rfl⟩
  | ok _ =>
    dsimp only
    rw [hwriter, hunresolved]
    exact ⟨rfl, rfl⟩

/-- Of the text of a report the sink gets what there is room for, and the report succeeds if
that is all of it. -/
theorem report_writes (reporter : Reporter) {executions : List Execution} {merged : MergedTests}
    (hmerged : MergedTests.ofExecutions executions = some merged) (sink : Sink) :
    (reporter.report executions sink).sink =
        (sink.writeText (perTestReport (reporter.entries merged.tests))).1 ∧
      if (sink.writeText (perTestReport (reporter.entries merged.tests))).2 then
        (reporter.report executions sink).outcome =
          .ok ⟨merged.tests.length, merged.unresolved⟩
      else ∃ fault, (reporter.report executions sink).outcome = .error (.report fault) := by
  have hall := writeReport_eq_writeAll merged.tests
    ⟨reporter, .fresh sink, merged.notices.map .attribution⟩
  have hlength : (reporter.entries merged.tests).length = merged.tests.length := by
    simpa using congrArg List.length (map_entries reporter merged.tests)
  unfold report reportMerged
  rw [hmerged]
  dsimp only at hall ⊢
  cases hwritten : sink.writeText (perTestReport (reporter.entries merged.tests)) with
  | mk next accepted =>
    have hrun := @PerTestWriter.writeAll_writes (.fresh sink) _ _ _ rfl hwritten
    rw [← hall] at hrun
    generalize writeReport _ merged.tests = answer at hrun ⊢
    obtain ⟨after, outcome⟩ := answer
    obtain ⟨rfl, houtcome⟩ := hrun
    cases accepted with
    | true =>
      obtain ⟨rfl, hcount⟩ := houtcome
      have htests : after.writer.tests = merged.tests.length :=
        hcount.trans ((Nat.zero_add _).trans hlength)
      refine ⟨rfl, ?_⟩
      rw [if_pos rfl, ← htests]
    | false =>
      obtain ⟨fault, rfl⟩ := houtcome
      exact ⟨rfl, fault, rfl⟩

/-- All faithful reporters write the same. -/
theorem report_eq (hkeyed : catalog.Keyed) {first second : Reporter}
    (hfirst : first.mapper.Faithful catalog analyzer)
    (hsecond : second.mapper.Faithful catalog analyzer) (executions : List Execution)
    (sink : Sink) :
    (first.report executions sink).sink = (second.report executions sink).sink ∧
      (first.report executions sink).outcome = (second.report executions sink).outcome := by
  unfold report
  cases MergedTests.ofExecutions executions with
  | none => exact ⟨rfl, rfl⟩
  | some merged =>
    have hentries : first.entries merged.tests = second.entries merged.tests := by
      rw [entries_eq_map hkeyed hfirst hsecond, entries_eq_map hkeyed hsecond hsecond]
    exact reportMerged_congr hentries rfl sink

/-! ## Lines -/

open Arrivals (named Held)

/-- Every line in the report of some executions is one that a record of a contributing
execution proves, and every such line is in the report if the records of its class version agree
on the name of the class and on the number of probes. -/
theorem report_lines {definitions : List ClassDefinition} {analyzer : Analyzer}
    {reporter : Reporter} {executions : List Execution} {merged : MergedTests}
    (hreached : Reached (.ofList definitions) analyzer reporter)
    (hmerged : MergedTests.ofExecutions executions = some merged) (sink : Sink) :
    let entries := reporter.entries merged.tests
    (reporter.report executions sink).sink = (sink.writeText (perTestReport entries)).1 ∧
    ((sink.writeText (perTestReport entries)).2 = true →
      (reporter.report executions sink).outcome = .ok ⟨entries.length, merged.unresolved⟩) ∧
    entries.map (fun entry => (entry.id, entry.duration, entry.result)) =
      merged.tests.map (fun test => (test.id, test.duration, test.result)) ∧
    ∀ entry ∈ entries,
      (∀ path line, entry.coverage.Records path line →
        ∃ record, Held (named executions) entry.id record ∧
          record.Proves (.ofList definitions) analyzer path line) ∧
      ∀ version,
        (∀ first second, Held (named executions) entry.id first →
          Held (named executions) entry.id second → first.id = version → second.id = version →
            first.hits.Agrees second.hits) →
        ∀ record path line, Held (named executions) entry.id record → record.id = version →
          record.Proves (.ofList definitions) analyzer path line →
            entry.coverage.Records path line := by
  intro entries
  have hkeyed := Catalog.keyed_ofList definitions
  obtain ⟨hsink, houtcome⟩ := report_writes reporter hmerged sink
  have hmap := map_entries reporter merged.tests
  have hlength : entries.length = merged.tests.length := by
    simpa using congrArg List.length hmap
  refine ⟨hsink, fun haccepted => ?_, hmap, fun entry hentry => ?_⟩
  · rw [if_pos haccepted] at houtcome
    rw [houtcome, hlength]
  obtain ⟨test, htest, hid, hlines⟩ :=
    exists_test_of_mem_entries hkeyed (hreached.faithful hkeyed) hentry
  -- the test is the sum of its credits, so its store merges what is held
  rw [MergedTests.tests_ofExecutions hmerged] at htest
  obtain ⟨id, -, rfl⟩ := List.mem_map.mp htest
  rw [LogicalTest.id_ofCredits] at hid
  subst hid
  constructor
  · intro path line hline
    obtain ⟨record, hrecord, hproves⟩ := (hlines path line).mp hline
    obtain ⟨probe, hhit, hother⟩ := hproves.exists_hit
    obtain ⟨source, hheld, hsame, hagrees, hsource⟩ :=
      Arrivals.exists_held_of_mem_store hrecord probe
    exact ⟨source, hheld, hother source hsame hagrees (hsource hhit)⟩
  · intro version hagree record path line hheld hversion hproves
    obtain ⟨probe, hhit, hother⟩ := hproves.exists_hit
    obtain ⟨merged, hmem, hsame, hagrees, hcovers⟩ :=
      Arrivals.exists_mem_store_of_held hheld fun other hotherHeld hid =>
        hagree other record hotherHeld hheld (hid.trans hversion) hversion
    refine (hlines path line).mpr ⟨merged, hmem, ?_⟩
    exact hother merged hsame hagrees.symm (hcovers probe hhit)

/-- A test reports the line that only the hook before it ran. -/
theorem report_lines_before_hook :
    let line : Line := ⟨7, by decide⟩
    let definition : ClassDefinition := ⟨"A", none, ⟨"A.class"⟩, ⟨1⟩, []⟩
    let analyzer : Analyzer := fun _ => .ok ⟨"A.java", [.ofList [line]]⟩
    let record : ProbeRecord := ⟨⟨1⟩, ⟨"A", [true]⟩⟩
    let hook := Execution.ofDump
      ⟨⟨"A#beforeClass", 0, 0⟩, ⟨⟨[(record.id, record.hits)], List.pairwise_singleton _ _⟩⟩⟩
    let test := Execution.ofDump (.ofSession ⟨"A/t", 0, 5⟩)
    let reporter : Reporter := ⟨.fresh (.ofList [definition]) analyzer⟩
    ∃ entry : TestCoverageEntry,
      (reporter.report [hook, test] (.fresh none)).sink =
        ((Sink.fresh none).writeText (perTestReport [entry])).1 ∧
      entry.id = "A/t" ∧ entry.coverage.Records "A.java" line := by
  intro line definition analyzer record hook test reporter
  have hfits : (MergedTests.gather [hook, test]).fits = true := by decide
  have hmerged : MergedTests.ofExecutions [hook, test] =
      some (MergedTests.gather [hook, test]) := by
    unfold MergedTests.ofExecutions
    exact if_pos hfits
  have hreached : Reached (.ofList [definition]) analyzer reporter := .fresh
  obtain ⟨hsink, -, htests, hlines⟩ := report_lines hreached hmerged (.fresh none)
  generalize reporter.entries (MergedTests.gather [hook, test]).tests = entries
    at hsink htests hlines
  have hids : entries.map (·.id) = ["A/t"] := by
    have hfirst := congrArg (List.map Prod.fst) htests
    rw [List.map_map, List.map_map] at hfirst
    exact hfirst.trans (by decide)
  obtain ⟨entry, rfl, hid⟩ := List.map_eq_singleton_iff.mp hids
  refine ⟨entry, hsink, hid, ?_⟩
  have hcontributes : Arrivals.Contributes (named [hook, test]) entry.id hook := by
    rw [hid]
    exact ⟨0, rfl, Or.inr ⟨1, test, by decide, rfl, rfl⟩⟩
  have hheld : Held (named [hook, test]) entry.id record :=
    ⟨hook, hcontributes, List.mem_singleton.mpr rfl⟩
  have honly (other : ProbeRecord) (hother : Held (named [hook, test]) entry.id other) :
      other = record := by
    obtain ⟨run, ⟨i, hrun, -⟩, hmem⟩ := hother
    have hnamed : run ∈ [hook, test] := List.mem_of_mem_filter (List.mem_of_getElem? hrun)
    simp only [List.mem_cons, List.not_mem_nil, or_false] at hnamed
    rcases hnamed with rfl | rfl
    · exact List.mem_singleton.mp hmem
    · cases hmem
  refine (hlines entry List.mem_cons_self).2 ⟨1⟩ ?_ record "A.java" line hheld rfl ?_
  · intro first second hfirst hsecond _ _
    rw [honly first hfirst, honly second hsecond]
    exact Hits.Agrees.refl _
  · exact ⟨definition, _, 0, _, rfl, rfl, rfl, rfl, rfl, rfl, rfl, by decide⟩

end TestCoverage.Reporter

import Mathlib
import TestCoverage.Proofs.Attribution.Interleaving
import TestCoverage.Proofs.Collect.Events
import TestCoverage.Proofs.Reporter

/-!
# The whole suite is the union of its parts

The same events come to a collector of per-test coverage and to one for the whole suite. The
first splits what is recorded by executions, and these by logical tests; the second merges
everything at once. If the records of every class version agree, nothing is lost on either
way: the executions have what their payloads have, every execution counts for some test
(`Arrivals.exists_test_proves_iff`), and merged stores prove together what each of them proves
(`ProbeStore.proves_mergeAll_iff`). So the coverage of the whole suite is the union of the
coverages of all tests and of what was recorded between them
(`Collectors.suite_coverage_eq_union`).
-/

namespace TestCoverage

variable {catalog : Catalog} {analyzer : Analyzer} {path : String} {line : Line}

namespace Arrivals

/-- The logical tests prove together what the executions prove. -/
theorem exists_test_proves_iff {runs : List Execution}
    (h : ProbeStore.Coherent (runs.map (·.dump.store))) :
    (∃ test ∈ tests runs, test.store.Proves catalog analyzer path line) ↔
      ∃ run ∈ runs, run.dump.store.Proves catalog analyzer path line := by
  have hstore (id : String) :
      (LogicalTest.ofCredits (credits runs) id).store.Proves catalog analyzer path line ↔
        ∃ c ∈ credits runs, c.test = id ∧
          c.run.dump.store.Proves catalog analyzer path line := by
    have hcoherent : ProbeStore.Coherent
        (((credits runs).filter (·.test = id)).map (·.run.dump.store)) := by
      refine h.mono fun store hstore => ?_
      obtain ⟨c, hc, rfl⟩ := List.mem_map.mp hstore
      exact List.mem_map_of_mem (run_mem_of_mem_credits (List.mem_of_mem_filter hc))
    rw [LogicalTest.store_ofCredits, ProbeStore.proves_mergeAll_iff hcoherent]
    simp [and_assoc]
  constructor
  · rintro ⟨test, htest, hproves⟩
    obtain ⟨id, -, rfl⟩ := List.mem_map.mp htest
    obtain ⟨c, hc, -, hproves⟩ := (hstore id).mp hproves
    exact ⟨c.run, run_mem_of_mem_credits hc, hproves⟩
  · rintro ⟨run, hrun, hproves⟩
    -- whatever test the execution counts for, it is one of the tests
    obtain ⟨c, hc, rfl⟩ := exists_credit_of_mem hrun
    refine ⟨_, List.mem_map_of_mem (mem_ids_iff_credit.mpr ⟨c, hc, rfl⟩), ?_⟩
    exact (hstore c.test).mpr ⟨c, hc, rfl, hproves⟩

end Arrivals

namespace TestEvent

variable {events : List TestEvent}

theorem map_store_executions (events : List TestEvent) :
    (executions events).map (·.dump.store) =
      ((events.filter (!·.isStart)).map stores).map ProbeStore.mergeAll := by
  have h := congrArg (List.map Prod.snd) (map_executions events)
  rw [List.map_map, List.map_map] at h
  rw [List.map_map]
  exact h

theorem id_mem_of_mem_executions {run : Execution} (h : run ∈ executions events) :
    ∃ event ∈ events, event.id = run.id := by
  have hmem : (run.id, run.dump.store) ∈
      (executions events).map fun run => (run.id, run.dump.store) := List.mem_map_of_mem h
  rw [map_executions] at hmem
  obtain ⟨event, hevent, heq⟩ := List.mem_map.mp hmem
  exact ⟨event, List.mem_of_mem_filter hevent, congrArg Prod.fst heq⟩

theorem mem_flatMap_stores_of_filter {keep : TestEvent → Bool} {store : ProbeStore}
    (h : store ∈ (events.filter keep).flatMap stores) : store ∈ events.flatMap stores := by
  obtain ⟨event, hevent, hstore⟩ := List.mem_flatMap.mp h
  exact List.mem_flatMap.mpr ⟨event, List.mem_of_mem_filter hevent, hstore⟩

theorem coherent_executions (h : ProbeStore.Coherent (events.flatMap stores)) :
    ProbeStore.Coherent ((executions events).map (·.dump.store)) := by
  rw [map_store_executions]
  exact (h.mono fun _ => mem_flatMap_stores_of_filter).map_mergeAll

/-- The finished tests prove together what their payloads prove. -/
theorem exists_execution_proves_iff (h : ProbeStore.Coherent (events.flatMap stores)) :
    (∃ run ∈ executions events, run.dump.store.Proves catalog analyzer path line) ↔
      ∃ store ∈ (events.filter (!·.isStart)).flatMap stores,
        store.Proves catalog analyzer path line := by
  have hevent (event : TestEvent) (hevent : event ∈ events.filter (!·.isStart)) :
      (ProbeStore.mergeAll event.stores).Proves catalog analyzer path line ↔
        ∃ store ∈ event.stores, store.Proves catalog analyzer path line := by
    refine ProbeStore.proves_mergeAll_iff (h.mono fun store hstore => ?_)
    exact mem_flatMap_stores_of_filter (List.mem_flatMap.mpr ⟨event, hevent, hstore⟩)
  have hstores : (∃ run ∈ executions events, run.dump.store.Proves catalog analyzer path line) ↔
      ∃ store ∈ (executions events).map (·.dump.store),
        store.Proves catalog analyzer path line := by
    simp
  rw [hstores, map_store_executions]
  constructor
  · rintro ⟨store, hstore, hproves⟩
    rw [List.map_map] at hstore
    obtain ⟨event, hmem, rfl⟩ := List.mem_map.mp hstore
    obtain ⟨store, hstore, hproves⟩ := (hevent event hmem).mp hproves
    exact ⟨store, List.mem_flatMap.mpr ⟨event, hmem, hstore⟩, hproves⟩
  · rintro ⟨store, hstore, hproves⟩
    obtain ⟨event, hmem, hstore⟩ := List.mem_flatMap.mp hstore
    refine ⟨_, List.mem_map_of_mem (List.mem_map_of_mem hmem), ?_⟩
    exact (hevent event hmem).mpr ⟨store, hstore, hproves⟩

/-- The payloads are those of finished tests and those from between tests. -/
theorem exists_store_iff (P : ProbeStore → Prop) :
    (∃ store ∈ events.flatMap stores, P store) ↔
      (∃ store ∈ (events.filter (!·.isStart)).flatMap stores, P store) ∨
        ∃ store ∈ (events.filter (·.isStart)).flatMap stores, P store := by
  constructor
  · rintro ⟨store, hstore, h⟩
    obtain ⟨event, hevent, hstore⟩ := List.mem_flatMap.mp hstore
    cases hstart : event.isStart with
    | false =>
      have hmem : event ∈ events.filter (!·.isStart) := by simp [hevent, hstart]
      exact Or.inl ⟨store, List.mem_flatMap.mpr ⟨event, hmem, hstore⟩, h⟩
    | true =>
      have hmem : event ∈ events.filter (·.isStart) := by simp [hevent, hstart]
      exact Or.inr ⟨store, List.mem_flatMap.mpr ⟨event, hmem, hstore⟩, h⟩
  · rintro (⟨store, hstore, h⟩ | ⟨store, hstore, h⟩) <;>
      exact ⟨store, mem_flatMap_stores_of_filter hstore, h⟩

end TestEvent

namespace Reporter

/-- The entries of tests record together what the tests prove. -/
theorem exists_entry_records_iff (hkeyed : catalog.Keyed) {reporter : Reporter}
    (h : reporter.mapper.Faithful catalog analyzer) (tests : List LogicalTest) :
    (∃ coverage ∈ (reporter.entries tests).map (·.coverage), coverage.Records path line) ↔
      ∃ test ∈ tests, test.store.Proves catalog analyzer path line := by
  have hentry (test : LogicalTest) : (reporter.entry test).2.2.coverage.Records path line ↔
      test.store.Proves catalog analyzer path line :=
    records_coverage_iff hkeyed h test.store path line
  rw [entries_eq_map hkeyed h h]
  simp [hentry]

end Reporter

namespace PerTestCollector

/-- Of the report of a collector the sink gets what there is room for. -/
theorem sink_dump (collector : PerTestCollector) (reporter : Reporter) {merged : MergedTests}
    (hmerged : MergedTests.ofExecutions collector.executions = some merged) (sink : Sink) :
    (collector.dump reporter sink).sink =
      if collector.executions = [] then sink
      else (sink.writeText (perTestReport (reporter.entries merged.tests))).1 := by
  unfold dump
  dsimp only [drain]
  by_cases hempty : collector.executions = []
  · simp [hempty]
  · rw [if_neg hempty, if_neg (by simpa using hempty)]
    rw [← (Reporter.report_writes reporter hmerged sink).1]
    split <;> rfl

end PerTestCollector

namespace SuiteCollector

theorem sink_dump (collector : SuiteCollector) (reporter : Reporter) (sink : Sink) :
    (collector.dump reporter sink).sink =
      if collector.isEmpty then sink
      else (sink.writeText (Xml.documentText (wholeSuiteMarkup
        (.spanning sessionId collector.sessions) (reporter.coverage collector.store).2.2))).1 := by
  unfold dump
  dsimp only [drain]
  split
  · rfl
  · rw [← Sink.writeDocument_fst]
    generalize sink.writeDocument _ = written
    obtain ⟨after, outcome⟩ := written
    cases outcome <;> rfl

end SuiteCollector

namespace Collectors

/-- The coverage of the whole suite is the union of the coverages of all tests and of what was
recorded between them. It has the lines that are proved by the payloads that can be read. -/
theorem suite_coverage_eq_union {definitions : List ClassDefinition} {analyzer : Analyzer}
    {reporter other : Reporter} {moduleName : Option String} {testList testCases : Bool}
    {events : List TestEvent} {collectors : Collectors} {merged : MergedTests}
    (hreporter : Reporter.Reached (.ofList definitions) analyzer reporter)
    (hother : Reporter.Reached (.ofList definitions) analyzer other)
    (hnamed : ∀ event ∈ events, event.id ≠ "")
    (hagree : ProbeStore.Coherent (events.flatMap TestEvent.stores))
    (hcollectors : ((empty moduleName).takeAll ⟨true, testList, testCases, true⟩ events).1 =
      collectors)
    (hmerged : MergedTests.ofExecutions collectors.perTest.executions = some merged) :
    let entries := reporter.entries merged.tests
    let between := (events.filter (·.isStart)).flatMap TestEvent.stores
    let coverage := (other.coverage collectors.suite.store).2.2
    (∀ sink, (collectors.perTest.dump reporter sink).sink =
      if collectors.perTest.executions = [] then sink
      else (sink.writeText (perTestReport entries)).1) ∧
    (∀ sink, (collectors.suite.dump other sink).sink =
      if collectors.suite.isEmpty then sink
      else (sink.writeText (Xml.documentText (wholeSuiteMarkup
        (.spanning SuiteCollector.sessionId collectors.suite.sessions) coverage))).1) ∧
    coverage = (entries.map (·.coverage) ++ between.map fun store =>
      (other.coverage store).2.2).foldl SourceLines.merge .empty ∧
    ∀ path line, coverage.Records path line ↔
      ∃ store ∈ events.flatMap TestEvent.stores,
        store.Proves (.ofList definitions) analyzer path line := by
  intro entries between coverage
  have hkeyed := Catalog.keyed_ofList definitions
  have hfaithful := hother.faithful hkeyed
  have hexecutions : collectors.perTest.executions = TestEvent.executions events := by
    rw [← hcollectors]
    exact (executions_takeAll events moduleName rfl).2
  have hstore : collectors.suite.store = ProbeStore.mergeAll (events.flatMap TestEvent.stores) := by
    rw [← hcollectors]
    exact store_takeAll events moduleName rfl
  -- the suite has what the payloads prove
  have hcoverage (path : String) (line : Line) : coverage.Records path line ↔
      ∃ store ∈ events.flatMap TestEvent.stores,
        store.Proves (.ofList definitions) analyzer path line := by
    rw [Reporter.records_coverage_iff hkeyed hfaithful, hstore,
      ProbeStore.proves_mergeAll_iff hagree]
  refine ⟨collectors.perTest.sink_dump reporter hmerged, collectors.suite.sink_dump other, ?_,
    hcoverage⟩
  -- the tests have what the payloads of finished tests prove
  have hnamed : Arrivals.named (TestEvent.executions events) = TestEvent.executions events := by
    refine List.filter_eq_self.mpr fun run hrun => ?_
    obtain ⟨event, hevent, hid⟩ := TestEvent.id_mem_of_mem_executions hrun
    simpa [← hid] using hnamed event hevent
  have htests : merged.tests = Arrivals.tests (TestEvent.executions events) := by
    rw [MergedTests.tests_ofExecutions hmerged, hexecutions, hnamed]
  have hentries (path : String) (line : Line) :
      (∃ coverage ∈ entries.map (·.coverage), coverage.Records path line) ↔
        ∃ store ∈ (events.filter (!·.isStart)).flatMap TestEvent.stores,
          store.Proves (.ofList definitions) analyzer path line := by
    rw [Reporter.exists_entry_records_iff hkeyed (hreporter.faithful hkeyed), htests,
      Arrivals.exists_test_proves_iff (TestEvent.coherent_executions hagree),
      TestEvent.exists_execution_proves_iff hagree]
  have hbetween (path : String) (line : Line) :
      (∃ coverage ∈ between.map fun store => (other.coverage store).2.2,
          coverage.Records path line) ↔
        ∃ store ∈ between, store.Proves (.ofList definitions) analyzer path line := by
    simp [Reporter.records_coverage_iff hkeyed hfaithful]
  refine (Reporter.lined_coverage hkeyed hfaithful _).ext
    (SourceLines.lined_empty.foldl_merge _) fun path line => ?_
  rw [hcoverage, SourceLines.records_foldl_merge_iff,
    or_iff_right (SourceLines.not_records_empty path line), TestEvent.exists_store_iff,
    ← hentries, ← hbetween]
  simp only [List.mem_append, or_and_right, exists_or]

/-- The line that only ran before the test is in the coverage of the whole suite, although the
payload of the test itself cannot be read. -/
theorem suite_coverage_eq_union_before_test :
    let line : Line := ⟨7, by decide⟩
    let definition : ClassDefinition := ⟨"A", none, ⟨"A.class"⟩, ⟨1⟩, []⟩
    let analyzer : Analyzer := fun _ => .ok ⟨"A.java", [.ofList [line]]⟩
    let reporter : Reporter := ⟨.fresh (.ofList [definition]) analyzer⟩
    let before : Bytes :=
      [0x01, 0xc0, 0xc0, 0x10, 0x07, 0x11, 0, 0, 0, 0, 0, 0, 0, 1, 0, 1, 0x41, 1, 1]
    let events : List TestEvent :=
      [.started (.ofId "A/t") before, .finished (.ofId "A/t") .passed [0x02] .zero]
    let collectors := ((empty none).takeAll .all events).1
    ∃ coverage : SourceLines,
      (collectors.suite.dump reporter (.fresh none)).sink =
        ((Sink.fresh none).writeText (Xml.documentText (wholeSuiteMarkup
          (.spanning SuiteCollector.sessionId collectors.suite.sessions) coverage))).1 ∧
      coverage.Records "A.java" line := by
  intro line definition analyzer reporter before events collectors
  have hreached : Reporter.Reached (.ofList [definition]) analyzer reporter := .fresh
  have hrecords : (events.flatMap TestEvent.stores).map (·.records) =
      [[⟨⟨1⟩, ⟨"A", [true]⟩⟩]] := by
    decide +kernel
  have hfits : (MergedTests.gather collectors.perTest.executions).fits = true := by
    decide +kernel
  have hmerged : MergedTests.ofExecutions collectors.perTest.executions =
      some (MergedTests.gather collectors.perTest.executions) := by
    unfold MergedTests.ofExecutions
    exact if_pos hfits
  have hsome : collectors.suite.isEmpty = false := by decide +kernel
  obtain ⟨store, hstores, hstore⟩ := List.map_eq_singleton_iff.mp hrecords
  have honly {record : ProbeRecord}
      (hheld : ProbeStore.HeldBy (events.flatMap TestEvent.stores) record) :
      record = ⟨⟨1⟩, ⟨"A", [true]⟩⟩ := by
    obtain ⟨other, hother, hrecord⟩ := hheld
    rw [hstores, List.mem_singleton] at hother
    rw [hother, hstore] at hrecord
    exact List.mem_singleton.mp hrecord
  have hagree : ProbeStore.Coherent (events.flatMap TestEvent.stores) := by
    intro first second hfirst hsecond _
    rw [honly hfirst, honly hsecond]
    exact Hits.Agrees.refl _
  have hcollectors : ((empty none).takeAll ⟨true, true, true, true⟩ events).1 = collectors := rfl
  obtain ⟨-, hsuite, -, hlines⟩ :=
    suite_coverage_eq_union hreached hreached (by decide) hagree hcollectors hmerged
  refine ⟨_, (hsuite (.fresh none)).trans (if_neg (by simp [hsome])), ?_⟩
  refine (hlines "A.java" line).mpr ⟨store, hstores ▸ List.mem_singleton_self store, ?_⟩
  refine ⟨⟨⟨1⟩, ⟨"A", [true]⟩⟩, hstore ▸ List.mem_singleton_self _, ?_⟩
  exact ⟨definition, _, 0, _, rfl, rfl, rfl, rfl, rfl, rfl, rfl, by decide⟩

end Collectors

end TestCoverage

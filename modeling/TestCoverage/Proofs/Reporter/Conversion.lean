import Mathlib
import TestCoverage.Proofs.Attribution.Stores
import TestCoverage.Proofs.Dump.Payload
import TestCoverage.Proofs.Reporter.History

/-!
# Reports of payloads

A report says of a store only which lines it proves. If stores are coherent before and after a
change that keeps what each of them proves, then the change cannot be seen in a report
(`Reporter.report_withStore`).

A payload leaves out the records without a hit. These prove nothing
(`ProbeStore.proves_pruned_iff`), and their absence is no incoherence
(`ProbeStore.Coherent.map_pruned`). So the report of a payload is the report of the dumps that
were written to it (`Reporter.reportPayload_encode`).
-/

namespace TestCoverage

namespace ProbeStore

/-- Records without a hit prove nothing. -/
theorem proves_pruned_iff {catalog : Catalog} {analyzer : Analyzer} {path : String} {line : Line}
    (store : ProbeStore) :
    store.pruned.Proves catalog analyzer path line ↔ store.Proves catalog analyzer path line := by
  unfold Proves
  rw [records_pruned]
  constructor
  · rintro ⟨record, hrecord, hproves⟩
    exact ⟨record, List.mem_of_mem_filter hrecord, hproves⟩
  · rintro ⟨record, hrecord, hproves⟩
    exact ⟨record, List.mem_filter.mpr ⟨hrecord, hproves.any⟩, hproves⟩

theorem Coherent.map_pruned {stores : List ProbeStore} (h : Coherent stores) :
    Coherent (stores.map pruned) := by
  have hheld {record : ProbeRecord} (hrecord : HeldBy (stores.map pruned) record) :
      HeldBy stores record := by
    obtain ⟨_, hpruned, hmem⟩ := hrecord
    obtain ⟨store, hstore, rfl⟩ := List.mem_map.mp hpruned
    rw [records_pruned] at hmem
    exact ⟨store, hstore, List.mem_of_mem_filter hmem⟩
  exact fun first second hfirst hsecond => h first second (hheld hfirst) (hheld hsecond)

end ProbeStore

namespace MergedTests

/-- Other stores do not change how long a test took. -/
theorem fits_gather_withStore (f : ProbeStore → ProbeStore) (executions : List Execution) :
    (gather (executions.map (·.withStore f))).fits = (gather executions).fits := by
  unfold fits
  rw [tests_gather, tests_gather, Arrivals.named_withStore, Arrivals.tests, Arrivals.tests,
    Arrivals.ids_withStore, Arrivals.credits_withStore, List.all_map, List.all_map]
  congr 1
  funext id
  obtain ⟨-, -, hduration, -⟩ :=
    LogicalTest.ofCredits_withStore f (Arrivals.credits (Arrivals.named executions)) id
  exact congrArg Duration.fits hduration

end MergedTests

namespace Reporter

variable {catalog : Catalog} {analyzer : Analyzer}

/-- Tests that differ in their stores only have the same entry if the stores prove the same. -/
theorem entry_eq (hkeyed : catalog.Keyed) {reporter : Reporter}
    (h : reporter.mapper.Faithful catalog analyzer) {test other : LogicalTest}
    (hid : test.id = other.id) (hresult : test.result = other.result)
    (hduration : test.duration = other.duration)
    (hstore : ∀ path line, test.store.Proves catalog analyzer path line ↔
      other.store.Proves catalog analyzer path line) :
    (reporter.entry test).2.2 = (reporter.entry other).2.2 := by
  have hcoverage : (reporter.coverage test.store).2.2 = (reporter.coverage other.store).2.2 := by
    refine (lined_coverage hkeyed h _).ext (lined_coverage hkeyed h _) fun path line => ?_
    rw [records_coverage_iff hkeyed h, records_coverage_iff hkeyed h, hstore]
  unfold entry
  dsimp only
  rw [hid, hresult, hduration, hcoverage]

/-- A report does not show a change of the stores that keeps what they prove. -/
theorem report_withStore (hkeyed : catalog.Keyed) {first second : Reporter}
    (hfirst : first.mapper.Faithful catalog analyzer)
    (hsecond : second.mapper.Faithful catalog analyzer) {executions : List Execution}
    (f : ProbeStore → ProbeStore)
    (hcoherent : ProbeStore.Coherent (executions.map (·.dump.store)))
    (hchanged : ProbeStore.Coherent ((executions.map (·.dump.store)).map f))
    (hf : ∀ store path line, (f store).Proves catalog analyzer path line ↔
      store.Proves catalog analyzer path line) (sink : Sink) :
    (first.report (executions.map (·.withStore f)) sink).sink =
        (second.report executions sink).sink ∧
      (first.report (executions.map (·.withStore f)) sink).outcome =
        (second.report executions sink).outcome := by
  have hfits := MergedTests.fits_gather_withStore f executions
  unfold report MergedTests.ofExecutions
  dsimp only
  rw [hfits]
  cases (MergedTests.gather executions).fits with
  | false => exact ⟨rfl, rfl⟩
  | true =>
    refine reportMerged_congr ?_ ?_ sink
    · rw [entries_eq_map hkeyed hfirst hsecond, entries_eq_map hkeyed hsecond hsecond,
        MergedTests.tests_gather, MergedTests.tests_gather, Arrivals.named_withStore,
        Arrivals.tests, Arrivals.tests, Arrivals.ids_withStore, Arrivals.credits_withStore,
        List.map_map, List.map_map]
      refine List.map_congr_left fun id _ => ?_
      obtain ⟨hid, hresult, hduration, hstore⟩ :=
        LogicalTest.ofCredits_withStore f (Arrivals.credits (Arrivals.named executions)) id
      refine entry_eq hkeyed hsecond hid hresult hduration fun path line => ?_
      -- both stores are merged from coherent ones, so they prove what those prove together
      have hmem : ∀ c ∈ (Arrivals.credits (Arrivals.named executions)).filter (·.test = id),
          c.run.dump.store ∈ executions.map (·.dump.store) := fun c hc =>
        List.mem_map_of_mem (List.mem_of_mem_filter
          (Arrivals.run_mem_of_mem_credits (List.mem_of_mem_filter hc)))
      rw [hstore, LogicalTest.store_ofCredits, ProbeStore.proves_mergeAll_iff,
        ProbeStore.proves_mergeAll_iff]
      · simp only [List.mem_map, exists_exists_and_eq_and, hf]
      · refine hcoherent.mono fun store hstore => ?_
        obtain ⟨c, hc, rfl⟩ := List.mem_map.mp hstore
        exact hmem c hc
      · refine hchanged.mono fun store hstore => ?_
        obtain ⟨c, hc, rfl⟩ := List.mem_map.mp hstore
        exact List.mem_map_of_mem (hmem c hc)
    · rw [MergedTests.unresolved_gather, MergedTests.unresolved_gather, Arrivals.named_withStore,
        Arrivals.unresolved_withStore]

/-- Dumps whose records agree may be reported at once or be written to a payload that is
reported later, by the same or another reporter: the sink gets the same and the outcome is the
same. It is a summary if the sink takes everything and a clock can show how long the tests
took. -/
theorem reportPayload_encode {definitions : List ClassDefinition} {first second : Reporter}
    (hfirst : Reached (.ofList definitions) analyzer first)
    (hsecond : Reached (.ofList definitions) analyzer second) {dumps : List Dump} {bytes : Bytes}
    (hencode : Payload.encode dumps = .ok bytes)
    (hcoherent : ProbeStore.Coherent (dumps.map (·.store))) (provenance : String) (sink : Sink) :
    let converted := first.reportPayload bytes provenance sink
    let direct := second.report (dumps.map Execution.ofDump) sink
    converted.sink = direct.sink ∧ converted.outcome = direct.outcome ∧
      ∀ merged, MergedTests.ofExecutions (dumps.map Execution.ofDump) = some merged →
        sink.limit = none → direct.outcome = .ok ⟨merged.tests.length, merged.unresolved⟩ := by
  intro converted direct
  have hkeyed := Catalog.keyed_ofList definitions
  obtain ⟨hnone, rfl⟩ := (Payload.encode_eq_ok_iff dumps bytes).mp hencode
  have hstores : (dumps.map Execution.ofDump).map (·.dump.store) = dumps.map (·.store) := by
    rw [List.map_map]
    rfl
  have hconverted : converted =
      first.report ((dumps.map Execution.ofDump).map (·.withStore .pruned)) sink := by
    have hpruned : (dumps.map Dump.pruned).map Execution.ofDump =
        (dumps.map Execution.ofDump).map (·.withStore .pruned) := by
      rw [List.map_map, List.map_map]
      rfl
    rw [← hpruned]
    simp only [converted, reportPayload, Payload.decode_write hnone]
  obtain ⟨hsink, houtcome⟩ := report_withStore hkeyed (hfirst.faithful hkeyed)
    (hsecond.faithful hkeyed) .pruned (hstores ▸ hcoherent) (hstores ▸ hcoherent.map_pruned)
    (fun store _ _ => store.proves_pruned_iff) sink
  refine ⟨hconverted ▸ hsink, hconverted ▸ houtcome, fun merged hmerged hlimit => ?_⟩
  obtain ⟨-, hwritten⟩ := report_writes second hmerged sink
  obtain ⟨limit, written⟩ := sink
  dsimp only at hlimit
  subst hlimit
  rwa [PerTestWriter.writeText_unlimited, if_pos rfl] at hwritten

/-- A hook and a test, with a class that only the test hit. -/
theorem reportPayload_encode_hook :
    let definitions : List ClassDefinition :=
      [⟨"A", none, ⟨"A.class"⟩, ⟨1⟩, []⟩, ⟨"B", none, ⟨"B.class"⟩, ⟨2⟩, []⟩]
    let analyzer : Analyzer := fun definition =>
      .ok ⟨definition.name ++ ".java", [.ofList [⟨7, by decide⟩]]⟩
    let reporter : Reporter := ⟨.fresh (.ofList definitions) analyzer⟩
    let dumps : List Dump :=
      [⟨⟨"A#beforeClass", 0, 3⟩, ⟨⟨[(⟨1⟩, ⟨"A", [true]⟩), (⟨2⟩, ⟨"B", [false]⟩)], by decide⟩⟩⟩,
        ⟨⟨"A/t", 3, 8⟩, ⟨⟨[(⟨2⟩, ⟨"B", [true]⟩)], by decide⟩⟩⟩]
    ∃ bytes, Payload.encode dumps = .ok bytes ∧
      (reporter.reportPayload bytes "file" (.fresh none)).sink =
        (reporter.report (dumps.map Execution.ofDump) (.fresh none)).sink ∧
      (reporter.reportPayload bytes "file" (.fresh none)).outcome = .ok ⟨1, []⟩ := by
  intro definitions analyzer reporter dumps
  have hreached : Reached (.ofList definitions) analyzer reporter := .fresh
  have hencoded : (Payload.encode dumps).isOk = true := by decide +kernel
  obtain ⟨bytes, hbytes⟩ : ∃ bytes, Payload.encode dumps = .ok bytes := by
    cases hencode : Payload.encode dumps with
    | ok bytes => exact ⟨bytes, rfl⟩
    | error rejection =>
      rw [hencode] at hencoded
      cases hencoded
  have hagree : ∀ first ∈ (dumps.map (·.store)).flatMap (·.records),
      ∀ second ∈ (dumps.map (·.store)).flatMap (·.records),
        first.id = second.id → first.hits.Agrees second.hits := by
    decide
  have hcoherent : ProbeStore.Coherent (dumps.map (·.store)) := fun first second hfirst hsecond =>
    hagree first (List.mem_flatMap.mpr hfirst) second (List.mem_flatMap.mpr hsecond)
  have hfits : (MergedTests.gather (dumps.map Execution.ofDump)).fits = true := by decide +kernel
  have hsummary : ((MergedTests.gather (dumps.map Execution.ofDump)).tests.length,
      (MergedTests.gather (dumps.map Execution.ofDump)).unresolved) = (1, []) := by
    decide +kernel
  have hmerged : MergedTests.ofExecutions (dumps.map Execution.ofDump) =
      some (MergedTests.gather (dumps.map Execution.ofDump)) := by
    unfold MergedTests.ofExecutions
    exact if_pos hfits
  obtain ⟨hsink, houtcome, hok⟩ :=
    reportPayload_encode hreached hreached hbytes hcoherent "file" (.fresh none)
  obtain ⟨hlength, hunresolved⟩ := Prod.mk.inj hsummary
  refine ⟨bytes, hbytes, hsink, ?_⟩
  rw [houtcome, hok _ hmerged rfl, hlength, hunresolved]

end Reporter

end TestCoverage

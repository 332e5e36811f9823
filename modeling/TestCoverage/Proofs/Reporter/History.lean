import Mathlib
import TestCoverage.Proofs.Reporter

/-!
# Reporters have no history

What a reporter finds and writes depends on its catalog and its analyzer only. Hence a reporter
finds the lines of a store that the records of the store prove, and writes the report that a fresh
reporter would write, whatever it mapped, wrote or failed to write before
(`Reporter.Reached.same_as_fresh`).
-/

namespace TestCoverage.Reporter

variable {catalog : Catalog} {analyzer : Analyzer}

/-- A reporter that made an entry is one that mapped a store. -/
theorem Reached.entry {reporter : Reporter} (h : Reached catalog analyzer reporter)
    (test : LogicalTest) : Reached catalog analyzer (reporter.entry test).1 :=
  .coverage test.store h

/-- Whatever a reporter did before, the lines of a store are those that its records prove, in
files that have lines, and a report comes to what it comes to with a fresh reporter. -/
theorem Reached.same_as_fresh {definitions : List ClassDefinition} {reporter : Reporter}
    (h : Reached (.ofList definitions) analyzer reporter) :
    (∀ store path line, (reporter.coverage store).2.2.Records path line ↔
      ∃ record ∈ store.records, record.Proves (.ofList definitions) analyzer path line) ∧
    (∀ store, ∀ file ∈ (reporter.coverage store).2.2.files,
      ∃ line, file.2.contains line = true) ∧
    ∀ executions sink,
      let fresh : Reporter := ⟨.fresh (.ofList definitions) analyzer⟩
      (reporter.report executions sink).sink = (fresh.report executions sink).sink ∧
        (reporter.report executions sink).outcome = (fresh.report executions sink).outcome := by
  have hkeyed := Catalog.keyed_ofList definitions
  have hfaithful := h.faithful hkeyed
  refine ⟨records_coverage_iff hkeyed hfaithful, fun store file hfile => ?_, ?_⟩
  · have hfound := (OrderedMap.mem_entries_iff _ file.1 file.2).mp hfile
    exact lined_coverage hkeyed hfaithful store file.1 file.2 hfound
  · exact report_eq hkeyed hfaithful (LineMapper.faithful_fresh _ _)

/-- A class still has its lines after a record of another name was passed over, the analysis of
another class failed, and a sink had no room for a report. -/
theorem Reached.same_as_fresh_after_refusal :
    let line : Line := ⟨7, by decide⟩
    let definitions : List ClassDefinition :=
      [⟨"A", none, ⟨"A.class"⟩, ⟨1⟩, []⟩, ⟨"B", none, ⟨"B.class"⟩, ⟨2⟩, []⟩]
    let analyzer : Analyzer := fun definition =>
      if definition.name = "A" then .ok ⟨"A.java", [.ofList [line]]⟩ else .error ["no lines"]
    let fresh : Reporter := ⟨.fresh (.ofList definitions) analyzer⟩
    let earlier : ProbeStore :=
      ⟨⟨[(⟨1⟩, ⟨"Other", [true]⟩), (⟨2⟩, ⟨"B", [true]⟩)], by decide⟩⟩
    let store : ProbeStore := ⟨⟨[(⟨1⟩, ⟨"A", [true]⟩)], by decide⟩⟩
    let run := Execution.ofDump ⟨⟨"A/t", 0, 5⟩, store⟩
    let reporter := ((fresh.entry ⟨"A/t", .passed, .zero, earlier⟩).1.report [run]
      (.fresh (some 0))).reporter
    (reporter.coverage store).2.2.Records "A.java" line ∧
      (reporter.report [run] (.fresh none)).outcome =
        (fresh.report [run] (.fresh none)).outcome := by
  intro line definitions analyzer fresh earlier store run reporter
  have hfresh : Reached (.ofList definitions) analyzer fresh := .fresh
  have hreached : Reached (.ofList definitions) analyzer reporter :=
    .report [run] (.fresh (some 0)) (hfresh.entry _)
  obtain ⟨hlines, -, hreport⟩ := hreached.same_as_fresh
  refine ⟨(hlines store "A.java" line).mpr ?_, (hreport [run] (.fresh none)).2⟩
  refine ⟨⟨⟨1⟩, ⟨"A", [true]⟩⟩, List.mem_singleton_self _, ?_⟩
  exact ⟨_, _, 0, _, rfl, rfl, rfl, rfl, rfl, rfl, rfl, by decide⟩

end TestCoverage.Reporter

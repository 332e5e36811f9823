import Mathlib
import TestCoverage.Proofs.Attribution.Durations
import TestCoverage.Proofs.Dump.Sessions
import TestCoverage.Reporter

/-!
# How long the sessions of a payload take

Each session of a payload becomes an execution, so a logical test takes as long as the sessions
under its name together, and a hook takes no time (`Session.total`). A session takes at most
2⁶³ - 1 milliseconds. So a clock can show the sum of 2000 sessions
(`Session.fits_total_of_length_le`), and if it cannot show a sum the report is refused
(`Reporter.reportPayload_durations`). There are payloads for which it is
(`Reporter.reportPayload_many_sessions`).
-/

namespace TestCoverage

namespace Session

/-- How long the sessions of a name take together. Those of a hook take no time. -/
def total (sessions : List Session) (id : String) : Duration :=
  if (TestKind.ofId id).isHook then .zero
  else ⟨((sessions.filter (·.id = id)).map (·.duration.nanos)).sum⟩

theorem total_replicate {session : Session} (h : (TestKind.ofId session.id).isHook = false)
    (count : Nat) :
    total (List.replicate count session) session.id = ⟨count * session.duration.nanos⟩ := by
  have hall : (List.replicate count session).filter (·.id = session.id) =
      List.replicate count session :=
    List.filter_eq_self.mpr fun other hother => by
      rw [List.eq_of_mem_replicate hother, decide_eq_true rfl]
  unfold total
  rw [h, if_neg Bool.false_ne_true, hall, List.map_replicate, List.sum_replicate, smul_eq_mul]

theorem nanos_duration_le (session : Session) :
    session.duration.nanos ≤ (2 ^ 63 - 1) * 1000000 := by
  have hmax : Int64.maxValue.toInt = 2 ^ 63 - 1 := by decide
  unfold duration Duration.ofMillis
  rw [hmax]
  dsimp only
  omega

/-- A clock can show the sum of 2000 sessions. -/
theorem fits_total_of_length_le {sessions : List Session} {id : String}
    (h : (sessions.filter (·.id = id)).length ≤ 2000) : (total sessions id).fits = true := by
  unfold total
  split
  · rfl
  · have hsum := List.sum_le_card_nsmul ((sessions.filter (·.id = id)).map (·.duration.nanos))
      ((2 ^ 63 - 1) * 1000000) fun nanos hnanos => by
        obtain ⟨session, -, rfl⟩ := List.mem_map.mp hnanos
        exact session.nanos_duration_le
    rw [List.length_map, smul_eq_mul] at hsum
    have hmany := Nat.mul_le_mul_right ((2 ^ 63 - 1) * 1000000) h
    have hclock : 2000 * ((2 ^ 63 - 1) * 1000000) < UInt64.size * 1000000000 := by decide
    exact decide_eq_true (lt_of_le_of_lt (hsum.trans hmany) hclock)

end Session

/-- The runs that dumps recorded take as long as their sessions. -/
theorem Arrivals.runTime_ofDump (dumps : List Dump) (id : String) :
    runTime (dumps.map Execution.ofDump) id = Session.total (dumps.map (·.session)) id := by
  unfold runTime Session.total
  rw [List.filter_map, List.filter_map, List.map_map, List.map_map]
  split
  · next hhook =>
    have hnone : dumps.filter ((fun run => !run.kind.isHook && run.id = id) ∘ Execution.ofDump) =
        [] := by
      refine List.filter_eq_nil_iff.mpr fun dump _ hown => ?_
      simp only [Function.comp_apply, Bool.and_eq_true, decide_eq_true_eq] at hown
      obtain ⟨hkind, rfl⟩ := hown
      change (!(TestKind.ofId dump.session.id).isHook) = true at hkind
      change (TestKind.ofId dump.session.id).isHook = true at hhook
      rw [hhook] at hkind
      exact absurd hkind Bool.false_ne_true
    rw [hnone]
    rfl
  · next htest =>
    refine congrArg (fun dumps => Duration.mk (List.map _ dumps).sum) (List.filter_congr ?_)
    rintro dump -
    change (!(TestKind.ofId dump.session.id).isHook && decide (dump.session.id = id)) =
      decide (dump.session.id = id)
    by_cases hid : dump.session.id = id
    · rw [hid, Bool.not_eq_true _ |>.mp htest]
      rfl
    · rw [decide_eq_false hid, Bool.and_false]

namespace Reporter

theorem outcome_reportMerged_ne (reporter : Reporter) (merged : MergedTests) (sink : Sink) :
    (reporter.reportMerged merged sink).outcome ≠ .error .duration := by
  unfold reportMerged
  dsimp only
  split <;> nofun

/-- A report is refused for a duration if and only if its executions are. -/
theorem outcome_report_eq_duration_iff (reporter : Reporter) (executions : List Execution)
    (sink : Sink) : (reporter.report executions sink).outcome = .error .duration ↔
      MergedTests.ofExecutions executions = none := by
  unfold report
  cases MergedTests.ofExecutions executions with
  | none => exact iff_of_true rfl rfl
  | some merged => exact iff_of_false (outcome_reportMerged_ne reporter merged sink) nofun

/-- The report of a payload is refused for a duration if and only if a clock cannot show how long
the sessions of some test take together. -/
theorem outcome_reportPayload_eq_duration_iff {bytes : Bytes} {provenance : String}
    {dumps : List Dump} (hread : Payload.decode bytes provenance = .ok dumps) (reporter : Reporter)
    (sink : Sink) : (reporter.reportPayload bytes provenance sink).outcome = .error .duration ↔
      ∃ id, id ≠ "" ∧ (Session.total (dumps.map (·.session)) id).fits = false := by
  simp only [← Arrivals.runTime_ofDump]
  unfold reportPayload
  rw [hread]
  dsimp only
  rw [outcome_report_eq_duration_iff, MergedTests.ofExecutions_eq_none_iff]

/-- The logical tests of a payload take as long as their sessions together. If a clock can show
all these sums, then no other than these tests are reported, and if there is one that it cannot
show, the report is refused. It can show them all if no name has more than 2000 sessions. -/
theorem reportPayload_durations {bytes : Bytes} {provenance : String} {dumps : List Dump}
    (hread : Payload.decode bytes provenance = .ok dumps) (reporter : Reporter) (sink : Sink) :
    let sessions := dumps.map (·.session)
    let merged := MergedTests.gather (dumps.map Execution.ofDump)
    (∀ test ∈ merged.tests, test.duration = Session.total sessions test.id) ∧
    (MergedTests.ofExecutions (dumps.map Execution.ofDump) = some merged ↔
      ∀ id, id ≠ "" → (Session.total sessions id).fits = true) ∧
    ((reporter.reportPayload bytes provenance sink).outcome = .error .duration ↔
      ∃ id, id ≠ "" ∧ (Session.total sessions id).fits = false) ∧
    ∀ id, (sessions.filter (·.id = id)).length ≤ 2000 →
      (Session.total sessions id).fits = true := by
  intro sessions merged
  have hrun (id : String) : Arrivals.runTime (dumps.map Execution.ofDump) id =
      Session.total sessions id :=
    Arrivals.runTime_ofDump dumps id
  refine ⟨fun test htest => ?_, ?_, outcome_reportPayload_eq_duration_iff hread reporter sink,
    fun id => Session.fits_total_of_length_le⟩
  · rw [← hrun]
    exact MergedTests.duration_gather htest
  · simp only [← hrun]
    exact MergedTests.ofExecutions_eq_some_iff

/-- Two sessions of a test. -/
theorem reportPayload_durations_two_sessions :
    let bytes : Bytes := [0x01, 0xc0, 0xc0, 0x10, 0x07,
      0x10, 0, 1, 0x74, 0, 0, 0, 0, 0, 0, 0, 5, 0, 0, 0, 0, 0, 0, 0, 7,
      0x10, 0, 1, 0x74, 0, 0, 0, 0, 0, 0, 0, 9, 0, 0, 0, 0, 0, 0, 0, 20]
    ∃ dumps, Payload.decode bytes "file" = .ok dumps ∧
      ∀ test ∈ (MergedTests.gather (dumps.map Execution.ofDump)).tests,
        test.duration = Session.total [⟨"t", 5, 7⟩, ⟨"t", 9, 20⟩] test.id := by
  intro bytes
  have hsessions : ((Payload.decode bytes "file").toOption.map fun dumps =>
      dumps.map (·.session)) = some [⟨"t", 5, 7⟩, ⟨"t", 9, 20⟩] := by
    decide +kernel
  obtain ⟨dumps, hread, hdumps⟩ := Payload.exists_decode_eq_ok hsessions
  obtain ⟨htests, -⟩ := reportPayload_durations hread ⟨.fresh .empty fun _ => .error []⟩
    (.fresh none)
  refine ⟨dumps, hread, fun test htest => (htests test htest).trans ?_⟩
  rw [hdumps]

/-- A payload in which one session of a test stands often enough is accepted, and its report is
refused. -/
theorem reportPayload_replicate {session : Session} {count : Nat}
    (hwritable : Block.Fits session.id) (hid : session.id ≠ "")
    (htest : (TestKind.ofId session.id).isHook = false)
    (hlong : (Duration.mk (count * session.duration.nanos)).fits = false)
    (reporter : Reporter) (provenance : String) (sink : Sink) :
    let dumps := List.replicate count (Dump.ofSession session)
    let bytes := (Payload.write dumps).bytes
    Payload.decode bytes provenance = .ok dumps ∧
      (reporter.reportPayload bytes provenance sink).outcome = .error .duration := by
  intro dumps bytes
  have hfits : (Payload.write dumps).rejection = none := by
    refine (Payload.write_rejection_eq_none_iff dumps).mpr fun dump hdump => ?_
    rw [List.eq_of_mem_replicate hdump]
    exact ⟨hwritable, fun _ h => absurd h List.not_mem_nil⟩
  have hread : Payload.decode bytes provenance = .ok dumps := by
    refine (Payload.decode_write hfits provenance).trans ?_
    rw [List.map_replicate]
    rfl
  refine ⟨hread, (outcome_reportPayload_eq_duration_iff hread reporter sink).mpr
    ⟨session.id, hid, ?_⟩⟩
  rw [List.map_replicate]
  change (Session.total (List.replicate count session) session.id).fits = false
  rw [Session.total_replicate htest]
  exact hlong

/-- With 2001 sessions of the greatest length a payload is accepted, and its report is refused. -/
theorem reportPayload_many_sessions :
    let dumps : List Dump := .replicate 2001 (.ofSession ⟨"t", 0, Int64.maxValue⟩)
    let bytes := (Payload.write dumps).bytes
    let reporter : Reporter := ⟨.fresh .empty fun _ => .error []⟩
    Payload.decode bytes "file" = .ok dumps ∧
      (reporter.reportPayload bytes "file" (.fresh none)).outcome = .error .duration :=
  reportPayload_replicate (by unfold Block.Fits; decide +kernel) (by decide) (by decide +kernel)
    (by decide +kernel) ⟨.fresh .empty fun _ => .error []⟩ "file" (.fresh none)

end Reporter

end TestCoverage

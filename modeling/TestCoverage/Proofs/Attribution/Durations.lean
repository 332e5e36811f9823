import Mathlib
import TestCoverage.Proofs.Attribution.Gathering

/-!
# How long logical tests take

Of all that counts for a logical test, only its own runs lend it time (`Arrivals.whole_credits`):
hooks take none, whichever test they count for. So a logical test takes as long as its runs
together (`MergedTests.duration_gather`), and executions are refused if and only if these durations
are too long for a clock (`MergedTests.ofExecutions_eq_some_iff`).
-/

namespace TestCoverage

namespace LogicalTest

theorem nanos_foldl_credit (credits : List Credit) (test : LogicalTest) :
    (credits.foldl credit test).duration.nanos = test.duration.nanos +
      ((credits.filter (·.share = .whole)).map (·.run.duration.nanos)).sum := by
  induction credits generalizing test with
  | nil => rfl
  | cons c rest ih =>
    rw [List.foldl_cons, ih]
    cases hshare : c.share <;> simp [credit, hshare, Duration.add, Nat.add_assoc]

end LogicalTest

namespace Arrivals

/-- How long the runs of a test take together. Hooks take no time. -/
def runTime (runs : List Execution) (id : String) : Duration :=
  ⟨((runs.filter fun run => !run.kind.isHook && run.id = id).map (·.duration.nanos)).sum⟩

/-- Of the credits that are settled as executions arrive, those with time are of the tests. -/
theorem whole_arrivalCredits (runs : List Execution) :
    (arrivalCredits runs).filter (·.share = .whole) =
      (runs.filter (!·.kind.isHook)).map fun run => ⟨run.id, run, .whole⟩ := by
  induction runs using List.reverseRecOn with
  | nil => rfl
  | append_singleton runs run ih =>
    rw [arrivalCredits_snoc, List.filter_append, List.filter_append, List.map_append, ih]
    refine congrArg _ ?_
    unfold arriving
    cases hkind : run.kind with
    | test owner => simp [hkind, TestKind.isHook]
    | beforeClass owner => simp [hkind, TestKind.isHook]
    | afterClass owner => simp [hkind, TestKind.isHook]

theorem whole_credits (runs : List Execution) :
    (credits runs).filter (·.share = .whole) =
      (runs.filter (!·.kind.isHook)).map fun run => ⟨run.id, run, .whole⟩ := by
  have hlone : ((loneBefore runs).map loneCredit).filter (·.share = .whole) = [] := by
    simp [loneCredit]
  rw [credits, List.filter_append, whole_arrivalCredits, hlone, List.append_nil]

theorem duration_ofCredits (runs : List Execution) (id : String) :
    (LogicalTest.ofCredits (credits runs) id).duration = runTime runs id := by
  refine congrArg Duration.mk ((LogicalTest.nanos_foldl_credit _ _).trans ?_)
  rw [List.filter_comm, whole_credits, List.filter_map, List.map_map, List.filter_filter]
  simp [LogicalTest.ofId, Duration.zero, Function.comp_def, Bool.and_comm]

/-- Executions without an identifier are of no test. -/
theorem runTime_named (executions : List Execution) {id : String} (hid : id ≠ "") :
    runTime (named executions) id = runTime executions id := by
  unfold runTime named
  rw [List.filter_filter]
  refine congrArg (fun runs => Duration.mk (List.map _ runs).sum) (List.filter_congr ?_)
  rintro run -
  by_cases hsame : run.id = id <;> simp [hsame, hid]

theorem ne_of_mem_ids {executions : List Execution} {id : String}
    (h : id ∈ ids (named executions)) : id ≠ "" := by
  obtain ⟨i, run, hrun, rfl, -⟩ := mem_ids_iff.mp h
  simpa using (List.mem_filter.mp (List.mem_of_getElem? hrun)).2

/-- A test without an own run takes no time. -/
theorem runTime_of_not_mem {runs : List Execution} {id : String} (h : id ∉ ids runs) :
    runTime runs id = .zero := by
  have hnone : (runs.filter fun run => !run.kind.isHook && run.id = id) = [] := by
    refine List.filter_eq_nil_iff.mpr fun run hrun hown => h ?_
    simp only [Bool.and_eq_true, decide_eq_true_eq] at hown
    obtain ⟨i, hi⟩ := List.mem_iff_getElem?.mp hrun
    refine mem_ids_iff.mpr ⟨i, run, hi, hown.2, fun hbefore => ?_⟩
    have hkind : run.kind = .beforeClass run.kind.owner := of_decide_eq_true hbefore
    rw [hkind] at hown
    exact absurd hown.1 Bool.false_ne_true
  rw [runTime, hnone]
  rfl

end Arrivals

namespace MergedTests

/-- A logical test takes as long as its runs together. -/
theorem duration_gather {executions : List Execution} {test : LogicalTest}
    (h : test ∈ (gather executions).tests) :
    test.duration = Arrivals.runTime executions test.id := by
  rw [tests_gather] at h
  obtain ⟨id, hid, rfl⟩ := List.mem_map.mp h
  rw [Arrivals.duration_ofCredits, LogicalTest.id_ofCredits,
    Arrivals.runTime_named _ (Arrivals.ne_of_mem_ids hid)]

/-- Executions are refused only if the runs of a test take too long together. -/
theorem ofExecutions_eq_some_iff {executions : List Execution} :
    ofExecutions executions = some (gather executions) ↔
      ∀ id, id ≠ "" → (Arrivals.runTime executions id).fits = true := by
  have hfits : (gather executions).fits = true ↔
      ∀ id, id ≠ "" → (Arrivals.runTime executions id).fits = true := by
    unfold fits
    rw [List.all_eq_true]
    constructor
    · intro h id hid
      by_cases hmem : id ∈ Arrivals.ids (Arrivals.named executions)
      · have htest := h (.ofCredits (Arrivals.credits (Arrivals.named executions)) id)
          (by rw [tests_gather]; exact List.mem_map_of_mem hmem)
        rwa [Arrivals.duration_ofCredits, Arrivals.runTime_named _ hid] at htest
      · rw [← Arrivals.runTime_named _ hid, Arrivals.runTime_of_not_mem hmem]
        rfl
    · intro h test htest
      rw [duration_gather htest]
      have hmem := htest
      rw [tests_gather] at hmem
      obtain ⟨id, hid, rfl⟩ := List.mem_map.mp hmem
      rw [LogicalTest.id_ofCredits]
      exact h id (Arrivals.ne_of_mem_ids hid)
  rw [← hfits]
  unfold ofExecutions
  dsimp only
  split
  · next hyes => exact iff_of_true rfl hyes
  · next hno => exact iff_of_false nofun hno

theorem ofExecutions_eq_none_iff {executions : List Execution} :
    ofExecutions executions = none ↔
      ∃ id, id ≠ "" ∧ (Arrivals.runTime executions id).fits = false := by
  have hsome := not_congr (@ofExecutions_eq_some_iff executions)
  have hcases : ofExecutions executions = none ↔
      ofExecutions executions ≠ some (gather executions) := by
    unfold ofExecutions
    dsimp only
    split <;> simp
  rw [hcases]
  simpa using hsome

end MergedTests

end TestCoverage

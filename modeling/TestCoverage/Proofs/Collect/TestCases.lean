import Mathlib
import TestCoverage.Collect.TestCases
import TestCoverage.Proofs.Report.TestSuite

/-!
# What a dumped suite report says

A collector of test cases is dumped, takes some events and is dumped again. The second report has
one test case for each test that finished in between, in order (`TestEvent.verdict?`). Hooks, which
are told by their identifiers, have none. What the test cases say and how many of each kind the
suite counts can be read from its text (`ReportsVerdicts`).

* `TestCaseCollector.Shows.take`: one event adds the case of its verdict, if it has one.
* `TestCaseCollector.dump_foldl_take`: what is dumped after any events. There is no report exactly
  if no test finished.

The times are left aside: they are those of the clock, or zero for a test that was not seen to
start.
-/

namespace TestCoverage

/-! ## Verdicts -/

/-- The identifier is that of a hook: it ends in `#beforeClass` or `#afterClass`. -/
def IsHookId (id : String) : Prop :=
  TestKind.beforeEnding.toList <:+ id.toList ∨ TestKind.afterEnding.toList <:+ id.toList

instance : DecidablePred IsHookId := fun _ => inferInstanceAs (Decidable (_ ∨ _))

namespace TestKind

theorem isSome_beforeEnding?_iff {ending text : List Char} :
    (beforeEnding? ending text).isSome = true ↔ ending <:+ text := by
  rw [← List.isSuffixOf_iff_suffix, beforeEnding?]
  split <;> simp_all

theorem isHook_ofId_iff (id : String) : (ofId id).isHook = true ↔ IsHookId id := by
  rw [IsHookId, ← isSome_beforeEnding?_iff, ← isSome_beforeEnding?_iff, ofId]
  cases beforeEnding? beforeEnding.toList id.toList with
  | some owner => simp [isHook]
  | none =>
    cases beforeEnding? afterEnding.toList id.toList with
    | some owner => simp [isHook]
    | none =>
      dsimp only
      split <;> simp [isHook]

end TestKind

/-- The identifier and the result of a test that finished. Hooks are no tests. -/
def TestEvent.verdict? : TestEvent → Option (String × TestResult)
  | .started _ _ => none
  | .finished test result _ _ =>
    if IsHookId test.internalId then none else some (test.internalId, result)

/-- A test case in a report has the names and the child that a verdict calls for. -/
structure CaseRecord.Tells (case : CaseRecord) (verdict : String × TestResult) : Prop where
  names : CutAtSlash verdict.1 case.className case.name
  child : ToldBy verdict.2 case.child

theorem TestCase.result_ofId (id : String) (duration : Duration) (result : TestResult) :
    (ofId id duration result).result = result := by
  unfold ofId
  split <;> rfl

theorem TestCase.tells_ofId (id : String) (duration : Duration) (result : TestResult) :
    (ofId id duration result).record.Tells (id, result) where
  names := cutAtSlash_ofId id duration result
  child := by
    have hchild := toldBy_child? (ofId id duration result)
    rwa [result_ofId] at hchild

/-- The text is a report of test cases with these verdicts, in order, whose numbers are those of its
elements. -/
def ReportsVerdicts (text : String) (verdicts : List (String × TestResult)) : Prop :=
  ∃ markup suite, Xml.read caseTextNames text.toList = some markup ∧
    readSuite? markup = some suite ∧
    List.Forall₂ CaseRecord.Tells suite.cases verdicts ∧
    suite.tests = toString (markup.countP (·.begins "testcase")) ∧
    suite.failures = toString (markup.countP (·.begins "failure")) ∧
    suite.errors = toString (markup.countP (·.begins "error")) ∧
    suite.skipped = toString (markup.countP (·.begins "skipped"))

theorem TestSuite.reportsVerdicts_render {suite : TestSuite}
    {verdicts : List (String × TestResult)}
    (h : List.Forall₂ (fun case verdict => case.record.Tells verdict) suite.cases verdicts) :
    ReportsVerdicts suite.render verdicts := by
  refine ⟨suite.markup, suite.record, suite.read_render, suite.readSuite?_markup,
    ?_, ?_, ?_, ?_, ?_⟩
  · exact List.forall₂_map_left_iff.mpr h
  · rw [countP_begins_testcase]
    rfl
  · rw [countP_begins_failure]
    rfl
  · rw [countP_begins_error]
    rfl
  · rw [countP_begins_skipped]
    rfl

/-! ## Events and dumps -/

namespace TestCaseCollector

/-- The cases that wait tell these verdicts. -/
def Shows (collector : TestCaseCollector) (verdicts : List (String × TestResult)) : Prop :=
  List.Forall₂ (fun case verdict => case.record.Tells verdict) collector.cases verdicts

theorem shows_dump (collector : TestCaseCollector) : collector.dump.1.Shows [] := by
  unfold dump
  split
  · next hcases =>
    rw [Shows, List.isEmpty_iff.mp hcases]
    exact .nil
  · exact .nil

/-- An event adds the case of its verdict. -/
theorem Shows.take {collector : TestCaseCollector} {verdicts : List (String × TestResult)}
    (h : collector.Shows verdicts) (event : TestEvent) :
    (collector.take event).Shows (verdicts ++ event.verdict?.toList) := by
  cases event with
  | started test payload =>
    rw [TestEvent.verdict?, Option.toList_none, List.append_nil]
    exact h
  | finished test result payload elapsed =>
    have hkind := TestKind.isHook_ofId_iff test.internalId
    rw [TestCaseCollector.take, TestEvent.verdict?]
    by_cases hhook : IsHookId test.internalId
    · rw [if_pos hhook, Option.toList_none, List.append_nil, TestDetails.kind,
        if_pos (hkind.mpr hhook)]
      exact h
    · rw [if_neg hhook, Option.toList_some, TestDetails.kind, if_neg (mt hkind.mp hhook)]
      exact List.rel_append h (.cons (TestCase.tells_ofId _ _ _) .nil)

theorem Shows.foldl_take {collector : TestCaseCollector} {verdicts : List (String × TestResult)}
    (h : collector.Shows verdicts) (events : List TestEvent) :
    (events.foldl TestCaseCollector.take collector).Shows
      (verdicts ++ events.filterMap TestEvent.verdict?) := by
  induction events generalizing collector verdicts with
  | nil => rwa [List.filterMap_nil, List.append_nil]
  | cons event rest ih =>
    have hverdicts : (event :: rest).filterMap TestEvent.verdict? =
        event.verdict?.toList ++ rest.filterMap TestEvent.verdict? := by
      rw [List.filterMap_cons]
      cases event.verdict? <;> rfl
    rw [List.foldl_cons, hverdicts, ← List.append_assoc]
    exact ih (h.take event)

/-- A suite report that is dumped says of every test that finished since the dump before what its
identifier and its result are, and counts its own elements. There is none if no test finished. -/
theorem dump_foldl_take (collector : TestCaseCollector) (events : List TestEvent) :
    match (events.foldl take collector.dump.1).dump.2 with
    | none => events.filterMap TestEvent.verdict? = []
    | some text =>
      events.filterMap TestEvent.verdict? ≠ [] ∧
        ReportsVerdicts text (events.filterMap TestEvent.verdict?) := by
  have hshows := collector.shows_dump.foldl_take events
  rw [List.nil_append] at hshows
  generalize events.filterMap TestEvent.verdict? = verdicts at hshows ⊢
  generalize events.foldl take collector.dump.1 = later at hshows
  unfold dump
  by_cases hcases : later.cases = []
  · rw [hcases, List.isEmpty_nil, if_pos rfl]
    rw [Shows, hcases] at hshows
    exact List.forall₂_nil_left_iff.mp hshows
  · rw [if_neg (by simpa using hcases)]
    refine ⟨?_, TestSuite.reportsVerdicts_render hshows⟩
    rintro rfl
    exact hcases (List.forall₂_nil_right_iff.mp hshows)

end TestCaseCollector

end TestCoverage

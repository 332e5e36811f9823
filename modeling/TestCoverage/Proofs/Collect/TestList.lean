import Mathlib
import TestCoverage.Collect.TestList
import TestCoverage.Proofs.Json.RoundTrip
import TestCoverage.Proofs.Lines.Ranges

/-!
# What a dumped test list says

A collector of test details takes events and is dumped now and then (`TestListCollector.Call`). What
waits in it are the tests that started since the last dump, each with the module of the collector if
it has one (`TestListCollector.foldl_call`). A dumped list is read back as those tests: whether a
field is absent or empty is kept, and so are the order and the tests that started more than once.

* `TestDetails.readList_writeList`: a list of details is read back.
* `TestListCollector.dump_foldl_call`: what is dumped after any calls. There is no list exactly if
  no test started.
-/

namespace TestCoverage

namespace TestDetails

/-! ## Details in JSON -/

/-- Details are read back from their fields. A path that is not known is `null`, a module that is
not known is left out; empty ones are empty texts. -/
theorem ofJson?_toRecord (details : TestDetails) :
    ofJson? details.toRecord.toJson = some details := by
  obtain ⟨externalId, internalId, sourcePath, displayName, moduleName⟩ := details
  cases sourcePath <;> cases moduleName <;> rfl

/-- Details on their own are read back as well. -/
theorem ofJson?_read_write (details : TestDetails) :
    (Json.read details.write).bind ofJson? = some details := by
  rw [write, Json.read_writeRecord, Option.bind_some, ofJson?_toRecord]

theorem readList_writeList (tests : List TestDetails) :
    readList (writeList tests) = some tests := by
  have htests : ((tests.map toRecord).map Json.FlatRecord.toJson).mapM ofJson? = some tests := by
    rw [List.map_map]
    exact (mapM_map_eq_some fun details _ => details.ofJson?_toRecord).trans
      (congrArg some (List.map_id tests))
  rw [readList, writeList, Json.read_writeRecords]
  exact htests

/-- The details with a module that goes before their own. -/
def inModule (moduleName : Option String) (details : TestDetails) : TestDetails :=
  { details with moduleName := moduleName.or details.moduleName }

theorem withModule_eq (details : TestDetails) (moduleName : Option String) :
    details.withModule moduleName = details.inModule moduleName := by
  cases moduleName <;> rfl

end TestDetails

namespace TestListCollector

/-! ## Calls -/

/-- What is done with a collector. -/
inductive Call where
  | take (event : TestEvent)
  | dump

namespace Call

def isTake : Call → Bool
  | .take _ => true
  | .dump => false

/-- The test that starts. -/
def started? : Call → Option TestDetails
  | .take (.started test _) => some test
  | .take (.finished _ _ _ _) => none
  | .dump => none

end Call

/-- The collector after a call. -/
def call (collector : TestListCollector) : Call → TestListCollector
  | .take event => collector.take event
  | .dump => collector.dump.1

/-- The tests that started since the last dump, in order. -/
def startedSince (calls : List Call) : List TestDetails :=
  (calls.rtakeWhile Call.isTake).filterMap Call.started?

theorem startedSince_take (calls : List Call) (event : TestEvent) :
    startedSince (calls ++ [.take event]) =
      startedSince calls ++ (Call.started? (.take event)).toList := by
  rw [startedSince, List.rtakeWhile_concat_pos _ _ _ rfl, List.filterMap_append, startedSince,
    List.filterMap_cons]
  cases Call.started? (.take event) <;> rfl

theorem startedSince_dump (calls : List Call) : startedSince (calls ++ [.dump]) = [] := by
  rw [startedSince, List.rtakeWhile_concat_neg _ _ _ (by simp [Call.isTake]), List.filterMap_nil]

/-! ## What waits -/

theorem dump_fst (collector : TestListCollector) :
    collector.dump.1 = ⟨collector.moduleName, []⟩ := by
  unfold dump
  split
  · next htests =>
    rw [← List.isEmpty_iff.mp htests]
  · rfl

/-- What waits after some calls are the tests that started since the last dump. -/
theorem foldl_call (moduleName : Option String) (calls : List Call) :
    calls.foldl call (empty moduleName) =
      ⟨moduleName, (startedSince calls).map (TestDetails.inModule moduleName)⟩ := by
  induction calls using List.reverseRecOn with
  | nil => rfl
  | append_singleton calls last ih =>
    rw [List.foldl_append, ih, List.foldl_cons, List.foldl_nil]
    cases last with
    | dump => rw [call, dump_fst, startedSince_dump, List.map_nil]
    | take event =>
      rw [call, startedSince_take, List.map_append]
      cases event with
      | started test payload =>
        rw [take, TestDetails.withModule_eq]
        rfl
      | finished test result payload elapsed =>
        rw [take, Call.started?, Option.toList_none, List.map_nil, List.append_nil]

/-- A list that is dumped is read as the tests that started since the dump before, with the module
that the collector was given, if it was given one. There is none if no test started. -/
theorem dump_foldl_call (moduleName : Option String) (calls : List Call) :
    match (calls.foldl call (empty moduleName)).dump.2 with
    | none => startedSince calls = []
    | some text =>
      startedSince calls ≠ [] ∧
        TestDetails.readList text =
          some ((startedSince calls).map (TestDetails.inModule moduleName)) := by
  rw [foldl_call, dump]
  cases hstarted : startedSince calls with
  | nil => rfl
  | cons test rest => exact ⟨List.cons_ne_nil test rest, TestDetails.readList_writeList _⟩

end TestListCollector

end TestCoverage

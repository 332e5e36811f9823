import TestCoverage.Collect.Event
import TestCoverage.Report.TestSuite

/-!
# Collecting test cases

The collector keeps a test case for every finished test until they are written as a suite
report. Hooks are no test cases.
-/

namespace TestCoverage

/-- The test cases that no suite report holds yet. -/
structure TestCaseCollector where
  /-- The tests that were seen to start and have not finished. -/
  started : List String
  cases : List TestCase
deriving DecidableEq, Repr

namespace TestCaseCollector

def empty : TestCaseCollector := ⟨[], []⟩

/-- Takes an event. A test that was not seen to start took no time. -/
def take (collector : TestCaseCollector) : TestEvent → TestCaseCollector
  | .started test _ =>
    let id := test.internalId
    { collector with started := id :: collector.started.filter (· ≠ id) }
  | .finished test result _ elapsed =>
    let id := test.internalId
    if test.kind.isHook then collector
    else
      let duration := if collector.started.contains id then elapsed else .zero
      { started := collector.started.filter (· ≠ id)
        cases := collector.cases ++ [TestCase.ofId id duration result] }

/-- The number of test cases that wait for a report. -/
def pending (collector : TestCaseCollector) : Nat := collector.cases.length

/-- The suite report of the cases, which are then forgotten. There is no report without
cases. -/
def dump (collector : TestCaseCollector) : TestCaseCollector × Option String :=
  if collector.cases.isEmpty then (collector, none)
  else ({ collector with cases := [] }, some (TestSuite.mk collector.cases).render)

end TestCaseCollector

end TestCoverage

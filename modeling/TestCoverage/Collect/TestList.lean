import TestCoverage.Collect.Event

/-!
# Collecting the list of tests

The collector keeps the details of every started test until they are written as a JSON list.
A module that is given to the collector replaces the one that the framework reports.
-/

namespace TestCoverage

/-- The started tests that no list holds yet. -/
structure TestListCollector where
  moduleName : Option String
  tests : List TestDetails
deriving DecidableEq, Repr

namespace TestListCollector

def empty (moduleName : Option String) : TestListCollector := ⟨moduleName, []⟩

def take (collector : TestListCollector) : TestEvent → TestListCollector
  | .started test _ =>
    { collector with tests := collector.tests ++ [test.withModule collector.moduleName] }
  | .finished _ _ _ _ => collector

/-- The list of the tests, which are then forgotten. There is no list without tests. -/
def dump (collector : TestListCollector) : TestListCollector × Option String :=
  if collector.tests.isEmpty then (collector, none)
  else ({ collector with tests := [] }, some (TestDetails.writeList collector.tests))

end TestListCollector

end TestCoverage

import TestCoverage.Collect.PerTest
import TestCoverage.Collect.TestCases
import TestCoverage.Collect.TestList
import TestCoverage.Collect.WholeSuite

/-!
# Dispatching events

Every event goes to each collector that listens, in a fixed order: per-test coverage, list of
tests, test cases, coverage of the whole suite.
-/

namespace TestCoverage

/-- One collector of each kind. -/
structure Collectors where
  perTest : PerTestCollector
  testList : TestListCollector
  testCases : TestCaseCollector
  suite : SuiteCollector

/-- Which collectors listen. -/
structure Listeners where
  perTest : Bool
  testList : Bool
  testCases : Bool
  suite : Bool
deriving DecidableEq, Repr

def Listeners.all : Listeners := ⟨true, true, true, true⟩

namespace Collectors

def empty (moduleName : Option String) : Collectors :=
  ⟨.empty, .empty moduleName, .empty, .empty⟩

/-- Gives an event to the collectors that listen. -/
def take (collectors : Collectors) (listeners : Listeners) (event : TestEvent) :
    Collectors × List CollectNotice :=
  let (perTest, notices₁) :=
    if listeners.perTest then collectors.perTest.take event else (collectors.perTest, [])
  let testList :=
    if listeners.testList then collectors.testList.take event else collectors.testList
  let testCases :=
    if listeners.testCases then collectors.testCases.take event else collectors.testCases
  let (suite, notices₂) :=
    if listeners.suite then collectors.suite.take event else (collectors.suite, [])
  (⟨perTest, testList, testCases, suite⟩, notices₁ ++ notices₂)

/-- Gives events, one after the other, to the collectors that listen. -/
def takeAll (collectors : Collectors) (listeners : Listeners) (events : List TestEvent) :
    Collectors × List CollectNotice :=
  events.foldl (fun (collectors, notices) event =>
    let (collectors, more) := collectors.take listeners event
    (collectors, notices ++ more)) (collectors, [])

end Collectors

end TestCoverage

import TestCoverage.Report.Document
import TestCoverage.Test.Outcome
import TestCoverage.Text.Cut
import TestCoverage.Time

/-!
# The suite report in JUnit's XML format

One element for each test case, with a child that says how it failed if it did. The suite
counts its cases, failures, errors and skipped cases; an ignored case is a skipped one.
-/

namespace TestCoverage

/-- A test as the suite report shows it. -/
structure TestCase where
  className : String
  name : String
  duration : Duration
  result : TestResult
deriving DecidableEq, Repr

/-- A test case from the identifier of a test, which is cut at its last `/`. -/
def TestCase.ofId (id : String) (duration : Duration) (result : TestResult) : TestCase :=
  match Text.cutLast? (· == '/') id.toList with
  | some (className, name) => ⟨String.ofList className, String.ofList name, duration, result⟩
  | none => ⟨"", id, duration, result⟩

/-- The child element for an outcome that is not a pass. -/
def Outcome.childTag? : Outcome → Option String
  | .passed => none
  | .ignored => some "skipped"
  | .skipped => some "skipped"
  | .failure => some "failure"
  | .error => some "error"

def TestCase.markup (case : TestCase) : List Xml.Markup :=
  let attributes :=
    [("classname", case.className), ("name", case.name), ("time", case.duration.seconds)]
  match case.result.outcome.childTag? with
  | none => [.emptyTag "testcase" attributes]
  | some child =>
    Xml.element "testcase" attributes
      (match case.result.message with
      | some message => Xml.textElement child [] message
      | none => [.emptyTag child []])

/-- The test cases of a suite, in order. -/
structure TestSuite where
  cases : List TestCase
deriving DecidableEq, Repr

namespace TestSuite

/-- The number of cases with such an outcome. -/
def count (suite : TestSuite) (matching : Outcome → Bool) : Nat :=
  suite.cases.countP fun case => matching case.result.outcome

def failures (suite : TestSuite) : Nat := suite.count (· == .failure)

/-- The number of cases that ended with an error. -/
def errors (suite : TestSuite) : Nat := suite.count (· == .error)

/-- The number of cases that were skipped or ignored. -/
def skipped (suite : TestSuite) : Nat :=
  suite.count fun outcome => outcome == .ignored || outcome == .skipped

def duration (suite : TestSuite) : Duration :=
  suite.cases.foldl (fun total case => total.add case.duration) .zero

def markup (suite : TestSuite) : List Xml.Markup :=
  let attributes :=
    [("tests", toString suite.cases.length), ("failures", toString suite.failures),
      ("errors", toString suite.errors), ("skipped", toString suite.skipped),
      ("time", suite.duration.seconds)]
  if suite.cases.isEmpty then [.emptyTag "testsuite" attributes]
  else Xml.element "testsuite" attributes (suite.cases.flatMap TestCase.markup)

def render (suite : TestSuite) : String := Xml.documentText suite.markup

end TestSuite

end TestCoverage

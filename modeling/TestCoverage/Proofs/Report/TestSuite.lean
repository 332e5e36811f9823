import Mathlib
import TestCoverage.Proofs.Lines.Ranges
import TestCoverage.Proofs.Xml.Reading
import TestCoverage.Report.TestSuite

/-!
# Reading suite reports in JUnit's format

What a suite report says, times apart, can be read from its text (`readSuite?`), and so can how
many elements of each name it has (`Xml.Markup.begins`).

* `TestSuite.readSuite?_markup`: what is read of a suite are its counters and its cases, each with
  the child element that it has.
* `TestSuite.countP_begins_testcase`, `TestSuite.countP_begins_failure` and the others: the
  counters are taken from the outcomes, and they agree with the elements that are written for the
  cases.

`CutAtSlash` says which names stand for an identifier, and `ToldBy` which child tells a result.
-/

namespace TestCoverage

open Xml

/-! ## Identifiers -/

/-- An identifier with the class and the name that it stands for: what is before and after its last
slash, and only the name if it has no slash. -/
inductive CutAtSlash : String → String → String → Prop where
  | atLast {className name : String} (h : '/' ∉ name.toList) :
      CutAtSlash (className ++ "/" ++ name) className name
  | whole {id : String} (h : '/' ∉ id.toList) : CutAtSlash id "" id

theorem TestCase.cutAtSlash_ofId (id : String) (duration : Duration) (result : TestResult) :
    CutAtSlash id (ofId id duration result).className (ofId id duration result).name := by
  have hslash {text : List Char} (h : ∀ c ∈ text, (c == '/') = false) : '/' ∉ text :=
    fun hmem => by simpa using h '/' hmem
  unfold ofId
  split
  · next className name hcut =>
    obtain ⟨c, hc, hid⟩ := Text.eq_of_cutLast? hcut
    have hname : '/' ∉ (String.ofList name).toList := by
      rw [String.toList_ofList]
      exact hslash (Text.not_isSeparator_of_cutLast? hcut)
    have hjoined : id = String.ofList className ++ "/" ++ String.ofList name := by
      rw [← String.toList_inj, hid, beq_iff_eq.mp hc]
      simp
    rw [hjoined]
    exact .atLast hname
  · next hcut => exact .whole (hslash (Text.not_isSeparator_of_cutLast?_eq_none hcut))

/-! ## Reading -/

/-- The elements of a suite report that hold texts. -/
def caseTextNames : List String := ["failure", "error", "skipped"]

/-- What a report says of a test case. -/
structure CaseRecord where
  className : String
  name : String
  /-- The child element, if there is one: its name, and its text if it is no empty tag. -/
  child : Option (String × Option String)

/-- What a suite report says. -/
structure SuiteRecord where
  tests : String
  failures : String
  errors : String
  skipped : String
  cases : List CaseRecord

def readChild? : List Node → Option (Option (String × Option String))
  | [] => some none
  | [.element name [] []] => some (some (name, none))
  | [.element name [] [.text message]] => some (some (name, some message))
  | _ => none

def readCase? : Node → Option CaseRecord
  | .element "testcase" [("classname", className), ("name", name), ("time", _)] content =>
    (readChild? content).map fun child => ⟨className, name, child⟩
  | _ => none

/-- What an element for a suite says. -/
def readElement? : Node → Option SuiteRecord
  | .element "testsuite" [("tests", tests), ("failures", failures), ("errors", errors),
      ("skipped", skipped), ("time", _)] cases =>
    (cases.mapM readCase?).map fun cases => ⟨tests, failures, errors, skipped, cases⟩
  | _ => none

/-- What the markup of a suite report says. -/
def readSuite? (markup : List Markup) : Option SuiteRecord :=
  match readNodes markup with
  | some [node] => readElement? node
  | _ => none

namespace Xml.Markup

/-- The markup begins an element with the given name. -/
def begins (name : String) : Markup → Bool
  | .openTag other _ | .emptyTag other _ => other == name
  | .closeTag _ | .text _ => false

variable (name other : String) (attributes : Attributes)

@[simp]
theorem begins_openTag : (openTag other attributes).begins name = (other == name) := rfl

@[simp]
theorem begins_emptyTag : (emptyTag other attributes).begins name = (other == name) := rfl

@[simp]
theorem begins_closeTag : (closeTag other).begins name = false := rfl

@[simp]
theorem begins_text : (Markup.text other).begins name = false := rfl

end Xml.Markup

/-- The child element by which a report tells a result: its name and its text. -/
inductive ToldBy : TestResult → Option (String × Option String) → Prop where
  | passed (message : Option String) : ToldBy ⟨.passed, message⟩ none
  | ignored (message : Option String) : ToldBy ⟨.ignored, message⟩ (some ("skipped", message))
  | skipped (message : Option String) : ToldBy ⟨.skipped, message⟩ (some ("skipped", message))
  | failure (message : Option String) : ToldBy ⟨.failure, message⟩ (some ("failure", message))
  | error (message : Option String) : ToldBy ⟨.error, message⟩ (some ("error", message))

/-! ## Test cases -/

namespace TestCase

variable (case : TestCase)

def attributes : Attributes :=
  [("classname", case.className), ("name", case.name), ("time", case.duration.seconds)]

def child? : Option (String × Option String) :=
  case.result.outcome.childTag?.map fun name => (name, case.result.message)

def record : CaseRecord := ⟨case.className, case.name, case.child?⟩

theorem toldBy_child? : ToldBy case.result case.child? := by
  obtain ⟨className, name, duration, outcome, message⟩ := case
  cases outcome with
  | passed => exact .passed message
  | ignored => exact .ignored message
  | skipped => exact .skipped message
  | failure => exact .failure message
  | error => exact .error message

end TestCase

/-! ## Markup -/

def childMarkup (child : String × Option String) : List Markup :=
  match child.2 with
  | some message => textElement child.1 [] message
  | none => [.emptyTag child.1 []]

def childNode (child : String × Option String) : Node :=
  .element child.1 [] (child.2.toList.map .text)

theorem readChild?_childNode (child : Option (String × Option String)) :
    readChild? (child.toList.map childNode) = some child := by
  rcases child with _ | ⟨name, _ | message⟩ <;> rfl

theorem makesUp_childMarkup (child : String × Option String) :
    MakesUp (childMarkup child) [childNode child] := by
  rcases child with ⟨name, _ | message⟩
  · exact makesUp_emptyTag name []
  · exact (makesUp_text message).element name []

theorem isName_of_mem_caseTextNames : ∀ name ∈ caseTextNames, isName name.toList = true := by
  decide

theorem unmixed_childMarkup {child : String × Option String} (h : child.1 ∈ caseTextNames) :
    Unmixed caseTextNames (childMarkup child) := by
  have htag : ValidTag child.1 [] := validTag_plain (isName_of_mem_caseTextNames child.1 h)
  rcases child with ⟨name, _ | message⟩
  · exact .emptyTag htag .nil
  · exact unmixed_textElement message htag h

theorem Outcome.mem_caseTextNames_of_childTag? {outcome : Outcome} {name : String}
    (h : outcome.childTag? = some name) : name ∈ caseTextNames := by
  revert h
  cases outcome <;> rintro ⟨⟩ <;> decide

namespace TestCase

variable (case : TestCase)

theorem markup_eq : case.markup =
    match case.child? with
    | none => [.emptyTag "testcase" case.attributes]
    | some child => element "testcase" case.attributes (childMarkup child) := by
  unfold markup child?
  cases case.result.outcome.childTag? with
  | none => rfl
  | some name => cases case.result.message <;> rfl

theorem validTag_attributes : ValidTag "testcase" case.attributes where
  name := by decide
  names := by simp [attributes]; decide
  nodup := by simp [attributes]

theorem unmixed_markup : Unmixed caseTextNames case.markup := by
  rw [markup_eq]
  split
  · exact .emptyTag case.validTag_attributes .nil
  · next child hchild =>
    obtain ⟨name, hname, rfl⟩ := Option.map_eq_some_iff.mp hchild
    exact unmixed_element case.validTag_attributes (by decide)
      (unmixed_childMarkup (Outcome.mem_caseTextNames_of_childTag? hname))

def node : Node := .element "testcase" case.attributes (case.child?.toList.map childNode)

theorem makesUp_markup : MakesUp case.markup [case.node] := by
  rw [markup_eq, node]
  cases case.child? with
  | none => exact makesUp_emptyTag "testcase" case.attributes
  | some child => exact (makesUp_childMarkup child).element "testcase" case.attributes

theorem readCase?_node : readCase? case.node = some case.record := by
  rw [node, attributes, readCase?, readChild?_childNode]
  rfl

end TestCase

/-! ## Suites -/

namespace TestSuite

variable (suite : TestSuite)

def attributes : Attributes :=
  [("tests", toString suite.cases.length), ("failures", toString suite.failures),
    ("errors", toString suite.errors), ("skipped", toString suite.skipped),
    ("time", suite.duration.seconds)]

def record : SuiteRecord where
  tests := toString suite.cases.length
  failures := toString suite.failures
  errors := toString suite.errors
  skipped := toString suite.skipped
  cases := suite.cases.map TestCase.record

theorem markup_eq : suite.markup =
    if suite.cases.isEmpty then [.emptyTag "testsuite" suite.attributes]
    else element "testsuite" suite.attributes (suite.cases.flatMap TestCase.markup) := rfl

theorem validTag_attributes : ValidTag "testsuite" suite.attributes where
  name := by decide
  names := by simp [attributes]; decide
  nodup := by simp [attributes]

theorem unmixed_markup : Unmixed caseTextNames suite.markup := by
  rw [markup_eq]
  split
  · exact .emptyTag suite.validTag_attributes .nil
  · exact unmixed_element suite.validTag_attributes (by decide)
      (unmixed_flatMap fun case _ => case.unmixed_markup)

def node : Node := .element "testsuite" suite.attributes (suite.cases.map TestCase.node)

theorem makesUp_markup : MakesUp suite.markup [suite.node] := by
  rw [markup_eq, node]
  split
  · next hcases =>
    rw [List.isEmpty_iff.mp hcases, List.map_nil]
    exact makesUp_emptyTag "testsuite" suite.attributes
  · exact (makesUp_flatMap TestCase.makesUp_markup suite.cases).element "testsuite" suite.attributes

theorem read_render : read caseTextNames suite.render.toList = some suite.markup :=
  read_documentText suite.unmixed_markup

theorem readElement?_node : readElement? suite.node = some suite.record := by
  have hcases : (suite.cases.map TestCase.node).mapM readCase? =
      some (suite.cases.map TestCase.record) :=
    mapM_map_eq_some fun case _ => case.readCase?_node
  rw [node, attributes, readElement?, hcases]
  rfl

theorem readSuite?_markup : readSuite? suite.markup = some suite.record := by
  rw [readSuite?, suite.makesUp_markup.readNodes_eq]
  exact suite.readElement?_node

end TestSuite

/-! ## Counting elements -/

theorem countP_begins_childMarkup (child : String × Option String) (name : String) :
    (childMarkup child).countP (·.begins name) = if child.1 = name then 1 else 0 := by
  rcases child with ⟨other, _ | message⟩ <;>
    simp [childMarkup, textElement, element, List.countP_cons]

/-- A test case is one element, with one more for a child. -/
theorem TestCase.countP_begins (case : TestCase) (name : String) :
    case.markup.countP (·.begins name) =
      (if "testcase" = name then 1 else 0) +
        if case.result.outcome.childTag? = some name then 1 else 0 := by
  rw [markup_eq, child?]
  cases case.result.outcome.childTag? with
  | none => simp
  | some child =>
    simp [element, List.countP_append, List.countP_cons, countP_begins_childMarkup, Nat.add_comm]

theorem Outcome.childTag?_ne_testcase (outcome : Outcome) :
    outcome.childTag? ≠ some "testcase" := by
  intro h
  exact absurd (mem_caseTextNames_of_childTag? h) (by decide)

namespace TestSuite

variable (suite : TestSuite)

theorem countP_begins {name : String} (h : name ≠ "testsuite") :
    suite.markup.countP (·.begins name) =
      (suite.cases.map fun case => case.markup.countP (·.begins name)).sum := by
  rw [markup_eq]
  split
  · next hcases =>
    rw [List.isEmpty_iff.mp hcases]
    simp [h.symm]
  · simp [element, List.countP_append, List.countP_flatMap, Function.comp_def, h.symm]

theorem countP_begins_testcase :
    suite.markup.countP (·.begins "testcase") = suite.cases.length := by
  have hone : ∀ case : TestCase, case.markup.countP (·.begins "testcase") = 1 := by
    intro case
    rw [case.countP_begins, if_pos rfl, if_neg case.result.outcome.childTag?_ne_testcase]
  rw [suite.countP_begins (by decide)]
  simp [hone]

/-- There are as many children of a name as outcomes that are told by it. -/
theorem countP_begins_child {name : String} (hname : name ∈ caseTextNames)
    {matching : Outcome → Bool}
    (h : ∀ outcome : Outcome, outcome.childTag? = some name ↔ matching outcome = true) :
    suite.markup.countP (·.begins name) = suite.count matching := by
  have hsuite : name ≠ "testsuite" := by
    rintro rfl
    exact absurd hname (by decide)
  have hcase : name ≠ "testcase" := by
    rintro rfl
    exact absurd hname (by decide)
  rw [suite.countP_begins hsuite, count]
  induction suite.cases with
  | nil => rfl
  | cons case rest ih =>
    rw [List.map_cons, List.sum_cons, ih, case.countP_begins, if_neg hcase.symm, List.countP_cons,
      Nat.zero_add, Nat.add_comm]
    simp only [h]

theorem countP_begins_failure :
    suite.markup.countP (·.begins "failure") = suite.failures := by
  apply suite.countP_begins_child (by decide)
  rintro (_ | _ | _ | _ | _) <;> decide

theorem countP_begins_error : suite.markup.countP (·.begins "error") = suite.errors := by
  apply suite.countP_begins_child (by decide)
  rintro (_ | _ | _ | _ | _) <;> decide

/-- Ignored cases are told as skipped ones. -/
theorem countP_begins_skipped :
    suite.markup.countP (·.begins "skipped") = suite.skipped := by
  apply suite.countP_begins_child (by decide)
  rintro (_ | _ | _ | _ | _) <;> decide

end TestSuite

end TestCoverage

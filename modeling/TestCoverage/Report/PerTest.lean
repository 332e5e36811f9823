import TestCoverage.Lines.SourceLines
import TestCoverage.Report.Document
import TestCoverage.Test.Outcome
import TestCoverage.Time

/-!
# The per-test report

An XML document with one element for each test, which is written test by test. A report is
begun, then takes tests, then is closed; a call that is out of order is refused and leaves
the sink as it is (`PerTestWriter`).
-/

namespace TestCoverage

/-- What a report says of one test. -/
structure TestCoverageEntry where
  id : String
  duration : Duration
  result : TestResult
  coverage : SourceLines

/-- The markup of the covered lines of a file. -/
def fileMarkup (file : String × LineSet) : List Xml.Markup :=
  Xml.element "file" [("path", file.1)] (Xml.textElement "lines" [] file.2.render)

/-- The markup of the covered lines of all files. -/
def filesMarkup (coverage : SourceLines) : List Xml.Markup := coverage.files.flatMap fileMarkup

namespace TestCoverageEntry

def attributes (entry : TestCoverageEntry) : Xml.Attributes :=
  [("id", entry.id), ("duration", entry.duration.seconds),
    ("result", entry.result.outcome.render)]

/-- The markup of a test: its message if it has one, then its files. -/
def markup (entry : TestCoverageEntry) : List Xml.Markup :=
  if entry.result.message.isNone && entry.coverage.isEmpty then
    [.emptyTag "test" entry.attributes]
  else
    Xml.element "test" entry.attributes
      ((entry.result.message.toList.flatMap (Xml.textElement "message" [])) ++
        filesMarkup entry.coverage)

end TestCoverageEntry

/-- How far a report is. -/
inductive ReportState where
  | created
  | opened
  | closed
deriving DecidableEq, Repr

def ReportState.render : ReportState → String
  | .created => "not yet begun"
  | .opened => "already open"
  | .closed => "closed"

/-- Why a call was refused. -/
inductive ReportFault where
  /-- The call is out of order. -/
  | state (action : String) (found : ReportState)
  | write (failure : WriteFailure)
deriving DecidableEq, Repr

def ReportFault.message : ReportFault → String
  | .state action found => "cannot " ++ action ++ " a report that is " ++ found.render
  | .write failure => "failed to write testwise report: " ++ failure.message

/-- A report that is being written. -/
structure PerTestWriter where
  sink : Sink
  state : ReportState
  /-- The number of tests that were written. -/
  tests : Nat
deriving DecidableEq, Repr

namespace PerTestWriter

def fresh (sink : Sink) : PerTestWriter := ⟨sink, .created, 0⟩

def opening : String := Xml.document [.openTag "report" []]

/-- What closes a report, without the line feed that ends it. -/
def closing : String := Xml.render 1 [.closeTag "report"]

def begin (writer : PerTestWriter) : PerTestWriter × Except ReportFault Unit :=
  match writer.state with
  | .created =>
    match writer.sink.writeMarkup opening with
    | (sink, .ok ()) => ({ writer with sink, state := .opened }, .ok ())
    | (sink, .error failure) => ({ writer with sink }, .error (.write failure))
  | state => (writer, .error (.state "begin" state))

def writeTest (writer : PerTestWriter) (entry : TestCoverageEntry) :
    PerTestWriter × Except ReportFault Unit :=
  match writer.state with
  | .opened =>
    match writer.sink.writeMarkup (Xml.render 1 entry.markup) with
    | (sink, .ok ()) => ({ writer with sink, tests := writer.tests + 1 }, .ok ())
    | (sink, .error failure) => ({ writer with sink }, .error (.write failure))
  | state => (writer, .error (.state "write to" state))

/-- Closes the report. When only the line feed at the end is refused the report is closed all
the same. -/
def close (writer : PerTestWriter) : PerTestWriter × Except ReportFault Unit :=
  match writer.state with
  | .opened =>
    match writer.sink.writeMarkup closing with
    | (sink, .error failure) => ({ writer with sink }, .error (.write failure))
    | (sink, .ok ()) =>
      match sink.writeEnding with
      | (sink, .ok ()) => ({ writer with sink, state := .closed }, .ok ())
      | (sink, .error failure) =>
        ({ writer with sink, state := .closed }, .error (.write failure))
  | state => (writer, .error (.state "close" state))

end PerTestWriter

def perTestReport (entries : List TestCoverageEntry) : String :=
  PerTestWriter.opening ++ String.join (entries.map fun entry => Xml.render 1 entry.markup) ++
    PerTestWriter.closing ++ "\n"

end TestCoverage

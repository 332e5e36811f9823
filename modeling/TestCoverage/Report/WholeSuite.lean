import TestCoverage.Probe.Session
import TestCoverage.Report.PerTest

/-!
# The whole-suite report

An XML document with the covered lines of all tests together, under the session that spans
them.
-/

namespace TestCoverage

/-- The markup of the covered lines of a session. -/
def wholeSuiteMarkup (session : Session) (coverage : SourceLines) : List Xml.Markup :=
  let attributes :=
    [("session", session.id), ("start", toString session.start.toInt),
      ("dump", toString session.dump.toInt)]
  if coverage.isEmpty then [.emptyTag "coverage" attributes]
  else Xml.element "coverage" attributes (filesMarkup coverage)

end TestCoverage

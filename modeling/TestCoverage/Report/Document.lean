import TestCoverage.Sink
import TestCoverage.Xml.Markup

/-!
# Writing documents to sinks

A document goes to its sink as markup, then as the line feed that ends it. When the sink
refuses, the failure says in which of the two.
-/

namespace TestCoverage

/-- Where a sink refused. -/
inductive WriteFailure where
  /-- Inside the markup. -/
  | markup
  /-- Only the line feed at the end is missing. -/
  | ending
deriving DecidableEq, Repr

/-- The wording of a failure, which is that the sink is full. -/
def WriteFailure.message : WriteFailure → String
  | .markup => "I/O error: disk full"
  | .ending => "disk full"

/-- Writes a text that is part of the markup. -/
def Sink.writeMarkup (sink : Sink) (text : String) : Sink × Except WriteFailure Unit :=
  match sink.writeText text with
  | (sink, true) => (sink, .ok ())
  | (sink, false) => (sink, .error .markup)

def Sink.writeEnding (sink : Sink) : Sink × Except WriteFailure Unit :=
  match sink.writeText "\n" with
  | (sink, true) => (sink, .ok ())
  | (sink, false) => (sink, .error .ending)

def Sink.writeDocument (sink : Sink) (markup : List Xml.Markup) :
    Sink × Except WriteFailure Unit :=
  match sink.writeMarkup (Xml.document markup) with
  | (sink, .ok ()) => sink.writeEnding
  | (sink, .error failure) => (sink, .error failure)

def Xml.documentText (markup : List Xml.Markup) : String := Xml.document markup ++ "\n"

end TestCoverage

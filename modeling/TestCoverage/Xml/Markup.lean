/-!
# XML text

A document is a declaration followed by pieces of markup: tags and text. `layout` writes the
pieces with each tag on a line of its own, two blanks for each open element in front; only a
tag right after a text stays on the line of the text. In texts and attribute values the five
characters that markup uses are written as entities (`escape`), and no other character is
changed.
-/

namespace TestCoverage.Xml

/-- The attributes of a tag, by name and value. -/
abbrev Attributes := List (String × String)

/-- A piece of markup. -/
inductive Markup where
  | openTag (name : String) (attributes : Attributes)
  | closeTag (name : String)
  | emptyTag (name : String) (attributes : Attributes)
  | text (text : String)
deriving DecidableEq, Repr

/-- The written form of a character in a text or attribute value. -/
def escapeChar : Char → List Char
  | '<' => "&lt;".toList
  | '>' => "&gt;".toList
  | '&' => "&amp;".toList
  | '\'' => "&apos;".toList
  | '"' => "&quot;".toList
  | c => [c]

/-- The written form of a text or attribute value. -/
def escape (text : String) : List Char := text.toList.flatMap escapeChar

/-- The written form of attributes, each with a blank in front. -/
def writeAttributes (attributes : Attributes) : List Char :=
  attributes.flatMap fun (name, value) =>
    ' ' :: name.toList ++ '=' :: '"' :: escape value ++ ['"']

/-- What comes before a tag: a new line with two blanks for each open element, unless the tag
follows a text. -/
def lead (afterText : Bool) (depth : Nat) : List Char :=
  if afterText then [] else '\n' :: List.replicate (2 * depth) ' '

/-- Writes pieces of markup inside `depth` open elements. -/
def layout : Nat → Bool → List Markup → List Char
  | _, _, [] => []
  | depth, afterText, .openTag name attributes :: rest =>
    lead afterText depth ++ '<' :: name.toList ++ writeAttributes attributes ++ '>' ::
      layout (depth + 1) false rest
  | depth, afterText, .closeTag name :: rest =>
    lead afterText (depth - 1) ++ '<' :: '/' :: name.toList ++ '>' ::
      layout (depth - 1) false rest
  | depth, afterText, .emptyTag name attributes :: rest =>
    lead afterText depth ++ '<' :: name.toList ++ writeAttributes attributes ++ '/' :: '>' ::
      layout depth false rest
  | depth, _, .text text :: rest => escape text ++ layout depth true rest

def declaration : List Char := "<?xml version=\"1.0\" encoding=\"UTF-8\"?>".toList

/-- Writes markup inside `depth` open elements. -/
def render (depth : Nat) (markup : List Markup) : String :=
  String.ofList (layout depth false markup)

/-- The document that consists of the given markup, without the line feed that ends it. -/
def document (markup : List Markup) : String :=
  String.ofList (declaration ++ layout 0 false markup)

def element (name : String) (attributes : Attributes) (content : List Markup) : List Markup :=
  .openTag name attributes :: content ++ [.closeTag name]

def textElement (name : String) (attributes : Attributes) (text : String) : List Markup :=
  element name attributes [.text text]

end TestCoverage.Xml

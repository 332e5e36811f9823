import TestCoverage.Text.Blank

/-!
# Patterns over locations

A pattern is read from left to right into parts: `**/` stands for any whole segments, any
other `**` for any characters, `*` for characters inside one segment, `?` for one character
inside a segment, and every other character for itself. Both `/` and `@` end a segment.
Wherever a pattern spans segments it stops at a line feed.

A pattern matches a location as a whole. `Pattern.accepts` decides this one part at a time,
from the last part to the first: `Part.extend` turns the answers of what follows the part,
one for every suffix of the location, into the answers of the part and what follows.
-/

namespace TestCoverage

/-- One part of a pattern. -/
inductive Part where
  /-- `**/`: nothing, or characters up to the end of a segment. -/
  | segments
  /-- `**`: any characters. -/
  | anything
  /-- `*`: any characters of one segment. -/
  | within
  /-- `?`: one character of a segment. -/
  | one
  /-- Any other character stands for itself. -/
  | literal (c : Char)
deriving DecidableEq, Repr

/-- A pattern: its parts from left to right. -/
structure Pattern where
  parts : List Part
deriving DecidableEq, Repr

namespace Pattern

/-- Ends a segment of a location. -/
def endsSegment (c : Char) : Bool := c == '/' || c == '@'

/-- A part that spans segments passes over every character but a line feed. -/
def spans (c : Char) : Bool := c != '\n'

def readParts : List Char → List Part
  | [] => []
  | '*' :: '*' :: '/' :: rest => .segments :: readParts rest
  | '*' :: '*' :: rest => .anything :: readParts rest
  | '*' :: rest => .within :: readParts rest
  | '?' :: rest => .one :: readParts rest
  | c :: rest => .literal c :: readParts rest

/-- Reads a pattern: blanks at the ends are dropped, and `\` is written `/`. -/
def ofText (text : List Char) : Pattern :=
  ⟨readParts ((Text.trim text).map fun c => if c = '\\' then '/' else c)⟩

end Pattern

namespace Part

open Pattern (endsSegment spans)

/-- The answers, for every suffix of the text and the empty one last, of a part that passes
over characters with `passes`, given the answers of what follows. -/
def extendWhile (passes : Char → Bool) : List Char → List Bool → List Bool
  | c :: text, next :: others =>
    let rest := extendWhile passes text others
    (next || (passes c && rest.headD false)) :: rest
  | _, next => next

/-- The answers of a part that takes exactly one character with `takes`. -/
def extendOne (takes : Char → Bool) : List Char → List Bool → List Bool
  | c :: text, _ :: others => (takes c && others.headD false) :: extendOne takes text others
  | _, _ => [false]

/-- The answers of a part that takes characters up to the end of a segment. -/
def extendSegments : List Char → List Bool → List Bool
  | c :: text, _ :: others =>
    let rest := extendSegments text others
    ((endsSegment c && others.headD false) || (spans c && rest.headD false)) :: rest
  | _, _ => [false]

/-- The answers of a part followed by what gave the answers `next`. -/
def extend (text : List Char) (part : Part) (next : List Bool) : List Bool :=
  match part with
  | segments => List.zipWith (· || ·) next (extendSegments text next)
  | anything => extendWhile spans text next
  | within => extendWhile (!endsSegment ·) text next
  | one => extendOne (!endsSegment ·) text next
  | literal l => extendOne (· == l) text next

end Part

namespace Pattern

/-- The answers of the empty pattern: only the empty suffix matches. -/
def atEnd (text : List Char) : List Bool := text.map (fun _ => false) ++ [true]

def accepts (pattern : Pattern) (text : List Char) : Bool :=
  (pattern.parts.foldr (Part.extend text) (atEnd text)).headD false

end Pattern

end TestCoverage

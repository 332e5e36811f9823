/-!
# Reading JSON

`Json.read` reads a JSON text strictly: nothing but white space may stand around the value,
numbers and escapes follow the grammar to the letter, and control characters must be
escaped. A text with an escape for a lone surrogate has no characters; it is read as
`none`, so that it can be passed over where nobody asks for it.
-/

namespace TestCoverage

/-- A JSON value. Numbers keep their written form. -/
inductive Json where
  | null
  | bool (value : Bool)
  | number (literal : List Char)
  | text (value : Option String)
  | array (elements : List Json)
  | object (members : List (Option String × Json))

namespace Json

/-- White space between the parts of a JSON text. -/
def isSpace (c : Char) : Bool := c == ' ' || c == '\n' || c == '\r' || c == '\t'

def skipSpace (source : List Char) : List Char := source.dropWhile isSpace

def hexDigit? (c : Char) : Option Nat :=
  if '0' ≤ c ∧ c ≤ '9' then some (c.toNat - '0'.toNat)
  else if 'a' ≤ c ∧ c ≤ 'f' then some (c.toNat - 'a'.toNat + 10)
  else if 'A' ≤ c ∧ c ≤ 'F' then some (c.toNat - 'A'.toNat + 10)
  else none

def hexNumber? (a b c d : Char) : Option Nat := do
  return (((← hexDigit? a) * 16 + (← hexDigit? b)) * 16 + (← hexDigit? c)) * 16 +
    (← hexDigit? d)

/-- The character that a backslash before the given one stands for. -/
def shortEscape? : Char → Option Nat
  | '"' => some 0x22
  | '\\' => some 0x5C
  | '/' => some 0x2F
  | 'b' => some 0x08
  | 'f' => some 0x0C
  | 'n' => some 0x0A
  | 'r' => some 0x0D
  | 't' => some 0x09
  | _ => none

/-- Reads up to the quote that ends a text: the code points, among them the surrogates that
escapes wrote, and what follows the quote. -/
def readUnits : List Char → Option (List Nat × List Char)
  | [] => none
  | '"' :: rest => some ([], rest)
  | '\\' :: 'u' :: a :: b :: c :: d :: rest => do
    let unit ← hexNumber? a b c d
    let (units, rest) ← readUnits rest
    return (unit :: units, rest)
  | '\\' :: c :: rest => do
    let unit ← shortEscape? c
    let (units, rest) ← readUnits rest
    return (unit :: units, rest)
  | c :: rest =>
    if c.toNat < 0x20 || c == '\\' then none
    else do
      let (units, rest) ← readUnits rest
      return (c.toNat :: units, rest)

/-- The characters of code points, with a high and a low surrogate together for one
character. There are none if some surrogate stands alone. -/
def joinSurrogates : List Nat → Option (List Char)
  | [] => some []
  | unit :: rest =>
    if unit < 0xD800 || 0xDFFF < unit then (joinSurrogates rest).map (Char.ofNat unit :: ·)
    else
      match rest with
      | low :: rest =>
        if unit < 0xDC00 && 0xDC00 ≤ low && low ≤ 0xDFFF then
          (joinSurrogates rest).map
            (Char.ofNat (0x10000 + (unit - 0xD800) * 1024 + (low - 0xDC00)) :: ·)
        else none
      | [] => none

def readText (rest : List Char) : Option (Option String × List Char) := do
  let (units, rest) ← readUnits rest
  return ((joinSurrogates units).map String.ofList, rest)

/-- Reads digits, of which there must be one at least. -/
def readDigits (source : List Char) : Option (List Char × List Char) :=
  match source.span Char.isDigit with
  | ([], _) => none
  | (digits, rest) => some (digits, rest)

/-- Reads the whole part of a number: zero, or digits that do not begin with zero. -/
def readWhole : List Char → Option (List Char × List Char)
  | '0' :: rest => some (['0'], rest)
  | source => readDigits source

/-- Reads the decimal places of a number, if it has any. -/
def readPlaces : List Char → Option (List Char × List Char)
  | '.' :: rest => (readDigits rest).map fun (digits, rest) => ('.' :: digits, rest)
  | source => some ([], source)

/-- Reads the exponent of a number, if it has one. -/
def readExponent : List Char → Option (List Char × List Char)
  | e :: rest =>
    if e == 'e' || e == 'E' then
      match rest with
      | '+' :: digits => (readDigits digits).map fun (digits, rest) => (e :: '+' :: digits, rest)
      | '-' :: digits => (readDigits digits).map fun (digits, rest) => (e :: '-' :: digits, rest)
      | digits => (readDigits digits).map fun (digits, rest) => (e :: digits, rest)
    else some ([], e :: rest)
  | [] => some ([], [])

def readUnsigned (source : List Char) : Option (List Char × List Char) := do
  let (whole, rest) ← readWhole source
  let (places, rest) ← readPlaces rest
  let (exponent, rest) ← readExponent rest
  return (whole ++ places ++ exponent, rest)

mutual

/-- Reads a value. Every step takes at least one character, so as many steps suffice as there
are characters. -/
def readValue : Nat → List Char → Option (Json × List Char)
  | 0, _ => none
  | steps + 1, source =>
    match skipSpace source with
    | 'n' :: 'u' :: 'l' :: 'l' :: rest => some (.null, rest)
    | 't' :: 'r' :: 'u' :: 'e' :: rest => some (.bool true, rest)
    | 'f' :: 'a' :: 'l' :: 's' :: 'e' :: rest => some (.bool false, rest)
    | '"' :: rest => (readText rest).map fun (value, rest) => (.text value, rest)
    | '[' :: rest =>
      match skipSpace rest with
      | ']' :: rest => some (.array [], rest)
      | rest => (readElements steps rest).map fun (elements, rest) => (.array elements, rest)
    | '\x7b' :: rest =>
      match skipSpace rest with
      | '\x7d' :: rest => some (.object [], rest)
      | rest => (readMembers steps rest).map fun (members, rest) => (.object members, rest)
    | '-' :: rest =>
      (readUnsigned rest).map fun (literal, rest) => (.number ('-' :: literal), rest)
    | rest => (readUnsigned rest).map fun (literal, rest) => (.number literal, rest)

/-- Reads the elements of an array, of which there is one at least, and its end. -/
def readElements : Nat → List Char → Option (List Json × List Char)
  | 0, _ => none
  | steps + 1, source => do
    let (element, rest) ← readValue steps source
    match skipSpace rest with
    | ']' :: rest => return ([element], rest)
    | ',' :: rest =>
      let (elements, rest) ← readElements steps rest
      return (element :: elements, rest)
    | _ => none

/-- Reads the members of an object, of which there is one at least, and its end. -/
def readMembers : Nat → List Char → Option (List (Option String × Json) × List Char)
  | 0, _ => none
  | steps + 1, source =>
    match skipSpace source with
    | '"' :: rest => do
      let (name, rest) ← readText rest
      match skipSpace rest with
      | ':' :: rest =>
        let (value, rest) ← readValue steps rest
        match skipSpace rest with
        | '\x7d' :: rest => return ([(name, value)], rest)
        | ',' :: rest =>
          let (members, rest) ← readMembers steps rest
          return ((name, value) :: members, rest)
        | _ => none
      | _ => none
    | _ => none

end

def read (source : String) : Option Json := do
  let chars := source.toList
  let (value, rest) ← readValue (chars.length + 1) chars
  if (skipSpace rest).isEmpty then return value else none

end Json

end TestCoverage

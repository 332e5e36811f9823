import TestCoverage.Bytes

/-!
# Writing JSON

Lists of flat records are written, each field being a text or `null`: on one line
(`writeRecord`), or spread over lines with two blanks for each level (`writeRecords`).
Quotes, backslashes and control characters are escaped, nothing else.
-/

namespace TestCoverage.Json

/-- A record of texts, by the names of its fields in order. -/
abbrev FlatRecord := List (String × Option String)

/-- The written form of a character in a text. -/
def escapeChar (c : Char) : List Char :=
  match c with
  | '"' => ['\\', '"']
  | '\\' => ['\\', '\\']
  | '\x08' => ['\\', 'b']
  | '\x0c' => ['\\', 'f']
  | '\n' => ['\\', 'n']
  | '\r' => ['\\', 'r']
  | '\t' => ['\\', 't']
  | c => if c.toNat < 0x20 then '\\' :: 'u' :: (hex 4 c.toNat).toList else [c]

def writeText (value : String) : List Char :=
  '"' :: value.toList.flatMap escapeChar ++ ['"']

def writeValue : Option String → List Char
  | some value => writeText value
  | none => "null".toList

def writeRecord (record : FlatRecord) : String :=
  let fields := record.map fun (name, value) => writeText name ++ ':' :: writeValue value
  String.ofList ('\x7b' :: [','].intercalate fields ++ ['\x7d'])

/-- A record inside a list, each field on a line of its own. -/
def writeIndented (record : FlatRecord) : List Char :=
  let fields := record.map fun (name, value) =>
    "\n    ".toList ++ writeText name ++ ':' :: ' ' :: writeValue value
  "\n  \x7b".toList ++ [','].intercalate fields ++ "\n  \x7d".toList

def writeRecords (records : List FlatRecord) : String :=
  match records with
  | [] => "[]"
  | records =>
    String.ofList ('[' :: [','].intercalate (records.map writeIndented) ++ ['\n', ']'])

end TestCoverage.Json

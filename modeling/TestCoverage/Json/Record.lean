import TestCoverage.Json.Reader

/-!
# Records in JSON

A record with named fields is written as an object, or as an array of its fields in order.
Members of an object that are no fields are passed over; a field that comes twice, or an
array with more elements than there are fields, is refused.

A field is `required`, or `optional` (then it may be `null`), or has a default. An optional
field may be left out of an object; out of an array only a field with a default may.
-/

namespace TestCoverage.Json

/-- The fields of a record that are there. -/
structure Record where
  /-- The record was written as an array. -/
  positional : Bool
  fields : List (String × Json)

/-- The names of the members, unless one of them has no characters. -/
def memberNames? (members : List (Option String × Json)) : Option (List (String × Json)) :=
  members.mapM fun (name, value) => name.map fun name => (name, value)

/-- The fields that a value has, given the names of all fields in order. -/
def Record.ofJson? (names : List String) : Json → Option Record
  | .array elements =>
    if elements.length ≤ names.length then some ⟨true, names.zip elements⟩ else none
  | .object members => do
    let fields := (← memberNames? members).filter fun field => names.contains field.1
    if (fields.map (·.1)).eraseDups.length = fields.length then return ⟨false, fields⟩
    else none
  | _ => none

namespace Record

/-- The value of a field, if the field is there. -/
def find? (record : Record) (name : String) : Option Json :=
  (record.fields.find? (·.1 == name)).map (·.2)

variable {α : Type}

def required (record : Record) (name : String) (read : Json → Option α) : Option α :=
  (record.find? name).bind read

def defaulting (record : Record) (name : String) (default : α) (read : Json → Option α) :
    Option α :=
  match record.find? name with
  | some value => read value
  | none => some default

def readNullable (read : Json → Option α) : Json → Option (Option α)
  | .null => some none
  | value => (read value).map some

/-- A field that may be `null`, or left out of an object. -/
def optional (record : Record) (name : String) (read : Json → Option α) :
    Option (Option α) :=
  match record.find? name with
  | some value => readNullable read value
  | none => if record.positional then none else some none

end Record

def asText? : Json → Option String
  | .text value => value
  | _ => none

def asBool? : Json → Option Bool
  | .bool value => some value
  | _ => none

def asList? {α : Type} (read : Json → Option α) : Json → Option (List α)
  | .array elements => elements.mapM read
  | _ => none

end TestCoverage.Json

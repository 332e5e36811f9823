import TestCoverage.Json.Record
import TestCoverage.Json.Writer
import TestCoverage.Test.Kind

/-!
# What is known of tests

The details of a test as a test framework reports them, and the list of tests in JSON:
`TestDetails.writeList` writes it, `TestDetails.readList` reads it back.
-/

namespace TestCoverage

/-- What a test framework says of a test. -/
structure TestDetails where
  /-- The identifier that the framework uses. -/
  externalId : String
  /-- The identifier that coverage is reported under. -/
  internalId : String
  sourcePath : Option String
  displayName : String
  moduleName : Option String
deriving DecidableEq, Repr

namespace TestDetails

/-- A test that is known by its identifier only. -/
def ofId (id : String) : TestDetails := ⟨id, id, none, id, none⟩

/-- The details with another module, if one is given. -/
def withModule (details : TestDetails) (moduleName : Option String) : TestDetails :=
  match moduleName with
  | some _ => { details with moduleName }
  | none => details

def kind (details : TestDetails) : TestKind := TestKind.ofId details.internalId

def fieldNames : List String :=
  ["externalId", "internalId", "sourcePath", "displayName", "module"]

/-- The fields as they are written. A test without a module has no such field. -/
def toRecord (details : TestDetails) : Json.FlatRecord :=
  [("externalId", some details.externalId), ("internalId", some details.internalId),
    ("sourcePath", details.sourcePath), ("displayName", some details.displayName)] ++
    details.moduleName.toList.map fun name => ("module", some name)

def write (details : TestDetails) : String := Json.writeRecord details.toRecord

def writeList (tests : List TestDetails) : String := Json.writeRecords (tests.map toRecord)

def ofJson? (value : Json) : Option TestDetails := do
  let record ← Json.Record.ofJson? fieldNames value
  return {
    externalId := ← record.required "externalId" Json.asText?
    internalId := ← record.required "internalId" Json.asText?
    sourcePath := ← record.optional "sourcePath" Json.asText?
    displayName := ← record.required "displayName" Json.asText?
    moduleName := ← record.defaulting "module" none (Json.Record.readNullable Json.asText?) }

def readList (text : String) : Option (List TestDetails) := do
  Json.asList? ofJson? (← Json.read text)

end TestDetails

end TestCoverage

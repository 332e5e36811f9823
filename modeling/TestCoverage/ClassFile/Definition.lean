import TestCoverage.Checksum
import TestCoverage.ClassFile.Header
import TestCoverage.Location

/-!
# Definitions of classes

A definition is a class file that was found somewhere: its name, its source file if it says
one, its location, its bytes, and the checksum that tells its version.
-/

namespace TestCoverage

/-- A class file that was found. -/
structure ClassDefinition where
  name : String
  sourceFile : Option String
  location : Location
  id : ClassId
  bytes : Bytes
deriving DecidableEq, Repr

/-- A class name with the version of the class. -/
structure ClassIdentity where
  name : String
  id : ClassId
deriving DecidableEq, Repr

/-- The written form: the name, then the identifier in parentheses. -/
def ClassIdentity.render (identity : ClassIdentity) : String :=
  identity.name ++ " (" ++ identity.id.render ++ ")"

namespace ClassDefinition

/-- The definition in the class file with these bytes. -/
def read (location : Location) (bytes : Bytes) : Except ClassFile.Fault ClassDefinition :=
  (ClassFile.Header.read bytes).map fun header =>
    { name := header.name, sourceFile := header.sourceFile, location,
      id := ClassId.ofBytes bytes, bytes }

def identity (definition : ClassDefinition) : ClassIdentity := ⟨definition.name, definition.id⟩

/-- The package: what stands before the last `/` of the name, if there is one. -/
def package (definition : ClassDefinition) : String :=
  match Text.cutLast? (· == '/') definition.name.toList with
  | some (package, _) => String.ofList package
  | none => ""

/-- The name of the source file: as the class file says, or else the outermost class, which
the simple name gives up to its first `$`, with the ending `.java`. -/
def sourceName (definition : ClassDefinition) : String :=
  match definition.sourceFile with
  | some file => file
  | none =>
    let simple := Text.afterLast (· == '/') definition.name.toList
    String.ofList (simple.takeWhile (· != '$')) ++ ".java"

/-- The path of the source file below the source root, such as `com/foo/Bar.java`. -/
def sourcePath (definition : ClassDefinition) : String :=
  if definition.package = "" then definition.sourceName
  else definition.package ++ "/" ++ definition.sourceName

end ClassDefinition

end TestCoverage

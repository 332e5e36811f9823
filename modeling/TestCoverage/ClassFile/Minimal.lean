import TestCoverage.ClassFile.Header

/-!
# The smallest class files

`minimal` writes a class file with a name, perhaps a source file, and nothing in it. A
marker is kept as a constant that nothing refers to, so that files that differ in the marker
alone have different checksums.
-/

namespace TestCoverage.ClassFile

/-- A text constant. The length field holds the low sixteen bits of the length. -/
def writeText (text : String) : Bytes :=
  let bytes := Text.ModifiedUtf8.encode text.toList
  1 :: Bytes.bigEndian 2 bytes.length ++ bytes

/-- A class constant, by the slot of its name. -/
def writeClass (name : Nat) : Bytes := 7 :: Bytes.bigEndian 2 name

/-- The class attributes: the source file, named by the text in slot six, or none. -/
def writeSourceFile (sourceFile : Option String) : Bytes :=
  match sourceFile with
  | some _ =>
    Bytes.bigEndian 2 1 ++ Bytes.bigEndian 2 5 ++ Bytes.bigEndian 4 2 ++ Bytes.bigEndian 2 6
  | none => Bytes.bigEndian 2 0

/-- A class file of version 52.0 without fields and methods. -/
def minimal (name : String) (sourceFile : Option String) (marker : String) : Bytes :=
  Bytes.bigEndian 4 magic ++ Bytes.bigEndian 2 0 ++ Bytes.bigEndian 2 52 ++
    Bytes.bigEndian 2 8 ++ writeText name ++ writeClass 1 ++ writeText "java/lang/Object" ++
    writeClass 3 ++ writeText "SourceFile" ++ writeText (sourceFile.getD "") ++
    writeText marker ++ Bytes.bigEndian 2 0x21 ++ Bytes.bigEndian 2 2 ++ Bytes.bigEndian 2 4 ++
    Bytes.bigEndian 2 0 ++ Bytes.bigEndian 2 0 ++ Bytes.bigEndian 2 0 ++
    writeSourceFile sourceFile

end TestCoverage.ClassFile

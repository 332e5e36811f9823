import TestCoverage.ClassFile.Pool

/-!
# The header of a class file

Of a class file only the version, the names of the class and of its super class, and the
name of its source file are read. Fields, methods and their attributes are passed over; the
last class attribute `SourceFile` with a body of two bytes names the source file. Whatever
follows the class attributes is left alone.
-/

namespace TestCoverage.ClassFile

/-- The number that every class file begins with. -/
def magic : Nat := 0xCAFEBABE

/-- The header of a class file. -/
structure Header where
  minorVersion : Nat
  majorVersion : Nat
  /-- The name in the virtual machine's form, such as `com/foo/Bar$Inner`. -/
  name : String
  superName : Option String
  sourceFile : Option String
deriving DecidableEq, Repr

def skipAttribute : Reader Unit := do
  Reader.skip 2
  Reader.skip (← Reader.number 4)

/-- Passes over one field or method: its flags, name and type, then its attributes. -/
def skipMember : Reader Unit := do
  Reader.skip 6
  Reader.times skipAttribute (← Reader.number 2)

/-- Reads `count` class attributes, keeping the name of the source file. -/
def readSourceFile (pool : Pool) : Nat → Option String → Reader (Option String)
  | 0, found => return found
  | count + 1, found => do
    let name ← Reader.number 2
    let body ← Reader.take (← Reader.number 4)
    if (← pool.text name) = "SourceFile" ∧ body.length = 2 then
      readSourceFile pool count (some (← pool.text (Bytes.ofBigEndian body)))
    else readSourceFile pool count found

/-- Reads a header off the front of a file. -/
def Header.reader : Reader Header := do
  let found ← Reader.number 4
  if found ≠ magic then throw (.badMagic found)
  let minorVersion ← Reader.number 2
  let majorVersion ← Reader.number 2
  let pool ← Pool.read
  Reader.skip 2
  let thisClass ← Reader.number 2
  let superClass ← Reader.number 2
  Reader.skip (2 * (← Reader.number 2))
  Reader.times skipMember (← Reader.number 2)
  Reader.times skipMember (← Reader.number 2)
  let sourceFile ← readSourceFile pool (← Reader.number 2) none
  let name ← pool.className thisClass
  let superName ← if superClass = 0 then pure none else some <$> pool.className superClass
  return { minorVersion, majorVersion, name, superName, sourceFile }

def Header.read (bytes : Bytes) : Except Fault Header :=
  (·.1) <$> Header.reader.run (.start bytes)

end TestCoverage.ClassFile

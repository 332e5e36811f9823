import TestCoverage.Bytes.Cursor

/-!
# Reading the fields of a class file

A reader takes bytes off the front of what is left of the file. The only way it fails by
itself is that too few bytes are left (`Fault.truncated`, with the offset where the missing
field begins).
-/

namespace TestCoverage.ClassFile

/-- Why a class file cannot be read. -/
inductive Fault where
  /-- The file begins with another number than class files do. -/
  | badMagic (magic : Nat)
  /-- The field at this offset is cut off. -/
  | truncated (offset : Nat)
  /-- The constant in this slot has a tag that no constant has. -/
  | unknownConstant (tag slot : Nat)
  /-- The slot does not hold a text. -/
  | notText (slot : Nat)
  /-- The slot does not hold a class. -/
  | notClass (slot : Nat)
  /-- The bytes of the text in this slot are not modified UTF-8. -/
  | invalidText (slot : Nat)
deriving DecidableEq, Repr

def Fault.message : Fault → String
  | .badMagic magic => "not a class file (magic 0x" ++ hex 8 magic ++ ")"
  | .truncated offset => "class file truncated at offset " ++ toString offset
  | .unknownConstant tag slot =>
    "unknown constant pool tag " ++ toString tag ++ " at index " ++ toString slot
  | .notText slot => "constant pool index " ++ toString slot ++ " is not a Utf8 entry"
  | .notClass slot => "constant pool index " ++ toString slot ++ " is not a Class entry"
  | .invalidText slot =>
    "constant pool entry " ++ toString slot ++ " is not valid modified UTF-8"

/-- Reads a value off the front of the file, or fails. -/
abbrev Reader (α : Type) := StateT Cursor (Except Fault) α

namespace Reader

def take (count : Nat) : Reader Bytes := fun cursor =>
  match cursor.take? count with
  | some taken => .ok taken
  | none => .error (.truncated cursor.offset)

def skip (count : Nat) : Reader Unit := do
  let _ ← take count

def number (width : Nat) : Reader Nat := do
  return Bytes.ofBigEndian (← take width)

def times (reader : Reader Unit) : Nat → Reader Unit
  | 0 => pure ()
  | count + 1 => do
    reader
    times reader count

end Reader

end TestCoverage.ClassFile

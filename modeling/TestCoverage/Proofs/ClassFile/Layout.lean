import Mathlib
import TestCoverage.Bytes
import TestCoverage.Text.ModifiedUtf8

/-!
# The layout of class files

A class file is a sequence of numbers, tables and byte strings. `Layout` is what stands in
such a file: any constants of the seventeen kinds, any fields, methods and attributes, as long
as their numbers fit into the fields that count them. `Layout.write` puts it into bytes, and
`Layout.text?` and `Layout.className?` follow the references into the constant pool.

All numbers are written most significant byte first, in one, two, four or eight bytes.
-/

namespace TestCoverage.ClassFile

def u2 (n : UInt16) : Bytes := Bytes.bigEndian 2 n.toNat

def u4 (n : UInt32) : Bytes := Bytes.bigEndian 4 n.toNat

def u8 (n : UInt64) : Bytes := Bytes.bigEndian 8 n.toNat

/-! ## Constants -/

/-- A constant, as it is laid out. -/
inductive PoolConstant where
  /-- A text in modified UTF-8; bytes that are not are no fault of the layout. -/
  | utf8 (bytes : Bytes) (fits : bytes.length < 65536)
  | integer (bits : UInt32)
  | float (bits : UInt32)
  | long (bits : UInt64)
  | double (bits : UInt64)
  /-- A class, by the slot of its name. -/
  | «class» (name : UInt16)
  | string (text : UInt16)
  | fieldRef (owner member : UInt16)
  | methodRef (owner member : UInt16)
  | interfaceMethodRef (owner member : UInt16)
  | nameAndType (name type : UInt16)
  | methodHandle (kind : UInt8) (target : UInt16)
  | methodType (type : UInt16)
  | dynamic (bootstrap member : UInt16)
  | invokeDynamic (bootstrap member : UInt16)
  | moduleName (name : UInt16)
  | packageName (name : UInt16)

namespace PoolConstant

def tag : PoolConstant → UInt8
  | utf8 _ _ => 1
  | integer _ => 3
  | float _ => 4
  | long _ => 5
  | double _ => 6
  | «class» _ => 7
  | string _ => 8
  | fieldRef _ _ => 9
  | methodRef _ _ => 10
  | interfaceMethodRef _ _ => 11
  | nameAndType _ _ => 12
  | methodHandle _ _ => 15
  | methodType _ => 16
  | dynamic _ _ => 17
  | invokeDynamic _ _ => 18
  | moduleName _ => 19
  | packageName _ => 20

/-- What stands after the tag. -/
def body : PoolConstant → Bytes
  | utf8 bytes _ => Bytes.bigEndian 2 bytes.length ++ bytes
  | integer bits => u4 bits
  | float bits => u4 bits
  | long bits => u8 bits
  | double bits => u8 bits
  | «class» name => u2 name
  | string text => u2 text
  | fieldRef owner member => u2 owner ++ u2 member
  | methodRef owner member => u2 owner ++ u2 member
  | interfaceMethodRef owner member => u2 owner ++ u2 member
  | nameAndType name type => u2 name ++ u2 type
  | methodHandle kind target => kind :: u2 target
  | methodType type => u2 type
  | dynamic bootstrap member => u2 bootstrap ++ u2 member
  | invokeDynamic bootstrap member => u2 bootstrap ++ u2 member
  | moduleName name => u2 name
  | packageName name => u2 name

def write (constant : PoolConstant) : Bytes := constant.tag :: constant.body

/-- The slots that a constant takes: a `long` or a `double` leaves its second slot empty. -/
def slots : PoolConstant → List (Option PoolConstant)
  | long bits => [some (long bits), none]
  | double bits => [some (double bits), none]
  | constant => [some constant]

end PoolConstant

/-! ## Attributes and members -/

/-- An attribute of a class or of a member. -/
structure Attribute where
  /-- The slot of the name. -/
  name : UInt16
  body : Bytes
  fits : body.length < 4294967296

def Attribute.write (attr : Attribute) : Bytes :=
  u2 attr.name ++ Bytes.bigEndian 4 attr.body.length ++ attr.body

/-- A table with the number of its rows, each row written by `row`. -/
def writeTable {α : Type} (row : α → Bytes) (rows : List α) : Bytes :=
  Bytes.bigEndian 2 rows.length ++ rows.flatMap row

/-- A field or a method. -/
structure Member where
  flags : UInt16
  name : UInt16
  type : UInt16
  attributes : List Attribute
  fits : attributes.length < 65536

def Member.write (member : Member) : Bytes :=
  u2 member.flags ++ u2 member.name ++ u2 member.type ++
    writeTable Attribute.write member.attributes

/-! ## Class files -/

/-- What stands in a class file. -/
structure Layout where
  minorVersion : UInt16
  majorVersion : UInt16
  constants : List PoolConstant
  /-- Every slot has a number below the declared count, which has two bytes. -/
  constants_fit : 1 + (constants.flatMap PoolConstant.slots).length < 65536
  flags : UInt16
  thisClass : UInt16
  superClass : UInt16
  interfaces : List UInt16
  interfaces_fit : interfaces.length < 65536
  fields : List Member
  fields_fit : fields.length < 65536
  methods : List Member
  methods_fit : methods.length < 65536
  attributes : List Attribute
  attributes_fit : attributes.length < 65536

namespace Layout

/-- The slots of the constant pool; slot zero is there and empty. -/
def pool (file : Layout) : List (Option PoolConstant) :=
  none :: file.constants.flatMap PoolConstant.slots

def write (file : Layout) : Bytes :=
  [0xCA, 0xFE, 0xBA, 0xBE] ++ u2 file.minorVersion ++ u2 file.majorVersion ++
    Bytes.bigEndian 2 file.pool.length ++ file.constants.flatMap PoolConstant.write ++
    u2 file.flags ++ u2 file.thisClass ++ u2 file.superClass ++
    writeTable u2 file.interfaces ++ writeTable Member.write file.fields ++
    writeTable Member.write file.methods ++ writeTable Attribute.write file.attributes

/-- The text in a slot, if there is one that can be decoded. -/
def text? (file : Layout) (slot : Nat) : Option String :=
  match file.pool[slot]? with
  | some (some (.utf8 bytes _)) => Text.ModifiedUtf8.decode bytes
  | _ => none

/-- The name of the class in a slot, if there is one with a name that can be decoded. -/
def className? (file : Layout) (slot : Nat) : Option String :=
  match file.pool[slot]? with
  | some (some (.class name)) => file.text? name.toNat
  | _ => none

/-- The name of the super class; slot zero says that there is none. -/
def superName? (file : Layout) : Option String :=
  if file.superClass = 0 then none else file.className? file.superClass.toNat

/-- The attribute refers to the name of the source file. -/
def NamesSource (file : Layout) (attr : Attribute) : Prop :=
  file.text? attr.name.toNat = some "SourceFile" ∧ attr.body.length = 2

instance (file : Layout) : DecidablePred file.NamesSource := fun attr =>
  inferInstanceAs (Decidable (_ = _ ∧ attr.body.length = 2))

/-- The text that the two bytes of the attribute refer to. -/
def sourceOf? (file : Layout) (attr : Attribute) : Option String :=
  file.text? (Bytes.ofBigEndian attr.body)

/-- The source file: what the last attribute says that refers to its name. -/
def sourceFile? (file : Layout) : Option String :=
  (file.attributes.filter fun attr => file.NamesSource attr).getLast?.bind file.sourceOf?

end Layout

end TestCoverage.ClassFile

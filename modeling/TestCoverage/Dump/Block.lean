import TestCoverage.Bytes.Cursor
import TestCoverage.Probe.Session
import TestCoverage.Probe.Record
import TestCoverage.Text.ModifiedUtf8

/-!
# Blocks of recorded data

Recorded data is written as blocks. The first byte of a block tells its kind: a header with
a magic number and a version, the information of a session, or the record of a class. Fixed
numbers are written most significant byte first. A text is its length in two bytes and its
modified UTF-8. The probes of a record are their number, seven bits to a byte with the least
significant first, and then one bit for each probe, eight to a byte with the lowest first.

`Block.read` takes a block off the front of what is left of a byte string, `Block.write`
writes one.
-/

namespace TestCoverage

/-- A block of recorded data. -/
inductive Block where
  | header
  | session (info : Session)
  | record (data : ProbeRecord)
deriving DecidableEq, Repr

namespace Block

/-- The kinds of block, as faults name them. -/
inductive Kind where
  | header
  | session
  | record
deriving DecidableEq, Repr

def Kind.name : Kind → String
  | .header => "header"
  | .session => "session info"
  | .record => "execution data"

/-- The byte that begins a block of a kind. -/
def Kind.byte : Kind → UInt8
  | .header => 0x01
  | .session => 0x10
  | .record => 0x11

def Kind.ofByte? : UInt8 → Option Kind
  | 0x01 => some .header
  | 0x10 => some .session
  | 0x11 => some .record
  | _ => none

def magic : Nat := 0xC0C0

def version : Nat := 0x1007

/-- Why a block cannot be read. -/
inductive Fault where
  | missingHeader (byte : UInt8)
  | badMagic (found : Nat)
  | badVersion (found : Nat)
  | unknownKind (byte : UInt8)
  | truncated (kind : Kind)
  | invalidText (kind : Kind)
  | tooManyProbes
  | incompatible (fault : MergeFault)
  /-- The data cannot be read at all. -/
  | unreadable
deriving DecidableEq, Repr

def Fault.message : Fault → String
  | .missingHeader byte => "expected a header block, found block type 0x" ++ hex 2 byte.toNat
  | .badMagic found => "invalid magic number 0x" ++ hex 4 found
  | .badVersion found =>
    "incompatible format version 0x" ++ hex 4 found ++ ", expected 0x" ++ hex 4 version
  | .unknownKind byte => "unknown block type 0x" ++ hex 2 byte.toNat
  | .truncated kind => "truncated " ++ kind.name ++ " block"
  | .invalidText kind => "invalid string in " ++ kind.name ++ " block"
  | .tooManyProbes => "probe count does not fit in 32 bits"
  | .incompatible fault => fault.message
  | .unreadable => "read failed"

/-! ## Reading -/

/-- Reads a value off the front of what is left, or fails. -/
abbrev Reader (α : Type) := StateT Cursor (Except Fault) α

def take (kind : Kind) (count : Nat) : Reader Bytes := fun cursor =>
  match cursor.take? count with
  | some taken => .ok taken
  | none => .error (.truncated kind)

def number (kind : Kind) (width : Nat) : Reader Nat := do
  return Bytes.ofBigEndian (← take kind width)

def text (kind : Kind) : Reader String := do
  let bytes ← take kind (← number kind 2)
  match Text.ModifiedUtf8.decode bytes with
  | some text => return text
  | none => throw (.invalidText kind)

/-- A number in groups of seven bits, the least significant first. `value` is what the groups
so far write and `shift` the place of the next one. The number has 32 bits, so the fifth group
has four bits at most and no group follows it. -/
def groups : Nat → Nat → Nat → Reader Nat
  | 0, _, _ => do
    let _ ← take .record 1
    throw .tooManyProbes
  | more + 1, shift, value => do
    let group ← number .record 1
    if shift = 28 ∧ 0x10 ≤ group % 0x80 then throw .tooManyProbes
    let value := value + (group % 0x80) <<< shift
    if group < 0x80 then return value else groups more (shift + 7) value

/-- The first `count` bits of some bytes, the lowest bit of each byte first. -/
def bits (count : Nat) (bytes : Bytes) : List Bool :=
  (bytes.flatMap fun b => (List.range 8).map fun i => b.toNat.testBit i).take count

def probes : Reader (List Bool) := do
  let count ← groups 5 0 0
  return bits count (← take .record ((count + 7) / 8))

def readHeader : Reader Block := do
  let found ← number .header 2
  if found ≠ magic then throw (.badMagic found)
  let found ← number .header 2
  if found ≠ version then throw (.badVersion found)
  return .header

def readSession : Reader Block := do
  let id ← text .session
  let start ← number .session 8
  let dump ← number .session 8
  return .session ⟨id, (UInt64.ofNat start).toInt64, (UInt64.ofNat dump).toInt64⟩

def readRecord : Reader Block := do
  let id ← number .record 8
  let className ← text .record
  let probes ← probes
  return .record ⟨⟨UInt64.ofNat id⟩, ⟨className, probes⟩⟩

def readRest : Kind → Reader Block
  | .header => readHeader
  | .session => readSession
  | .record => readRecord

/-- Reads a block that begins with `byte`, of which `cursor` is what follows. -/
def read (byte : UInt8) (cursor : Cursor) : Except Fault (Block × Cursor) :=
  match Kind.ofByte? byte with
  | some kind => (readRest kind).run cursor
  | none => .error (.unknownKind byte)

/-! ## Writing -/

/-- Why something cannot be written. -/
inductive Rejection where
  /-- The text takes more than 65535 bytes. -/
  | longText (bytes : Nat)
  /-- The number of probes does not fit in 32 bits. -/
  | manyProbes
deriving DecidableEq, Repr

def Rejection.message : Rejection → String
  | .longText bytes => "string of " ++ toString bytes ++ " bytes is too long to encode"
  | .manyProbes => "too many probes"

/-- What writing something leaves behind: the bytes that were written, and why writing
stopped after them if it did. -/
structure Output where
  bytes : Bytes
  rejection : Option Rejection
deriving DecidableEq, Repr

namespace Output

/-- Bytes that are always written. -/
def ofBytes (bytes : Bytes) : Output := ⟨bytes, none⟩

/-- One output after the other. Nothing follows where writing has stopped. -/
def append (first second : Output) : Output :=
  match first.rejection with
  | some _ => first
  | none => ⟨first.bytes ++ second.bytes, second.rejection⟩

instance : Append Output := ⟨append⟩

end Output

def writeText (text : String) : Output :=
  let bytes := Text.ModifiedUtf8.encode text.toList
  if 65535 < bytes.length then ⟨[], some (.longText bytes.length)⟩
  else .ofBytes (Bytes.bigEndian 2 bytes.length ++ bytes)

/-- Writes a number in groups of seven bits. -/
def writeGroups : Nat → Nat → Bytes
  | 0, n => [UInt8.ofNat (n % 0x80)]
  | more + 1, n =>
    if n < 0x80 then [UInt8.ofNat n]
    else UInt8.ofNat (0x80 + n % 0x80) :: writeGroups more (n / 0x80)

/-- The number whose binary digits, the lowest first, are the given ones. -/
def ofBits : List Bool → Nat
  | [] => 0
  | bit :: rest => bit.toNat + 2 * ofBits rest

/-- Writes bits, eight to a byte with the lowest first. The last byte is filled up with
zeros. -/
def writeBits : Nat → List Bool → Bytes
  | 0, _ => []
  | count + 1, bits => UInt8.ofNat (ofBits (bits.take 8)) :: writeBits count (bits.drop 8)

def writeProbes (probes : List Bool) : Output :=
  if UInt32.size ≤ probes.length then ⟨[], some .manyProbes⟩
  else
    .ofBytes (writeGroups 4 probes.length ++ writeBits ((probes.length + 7) / 8) probes)

def write : Block → Output
  | .header =>
    .ofBytes (Kind.header.byte :: Bytes.bigEndian 2 magic ++ Bytes.bigEndian 2 version)
  | .session info =>
    .ofBytes [Kind.session.byte] ++ writeText info.id ++
      .ofBytes (Bytes.bigEndian 8 info.start.toUInt64.toNat ++
        Bytes.bigEndian 8 info.dump.toUInt64.toNat)
  | .record data =>
    .ofBytes (Kind.record.byte :: Bytes.bigEndian 8 data.id.bits.toNat) ++
      writeText data.hits.className ++ writeProbes data.hits.probes

end Block

end TestCoverage

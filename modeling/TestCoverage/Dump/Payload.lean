import TestCoverage.Dump
import TestCoverage.Dump.Block

/-!
# Payloads

A payload is a sequence of blocks that begins with a header, or nothing at all. The
information of a session begins a new dump, and a record is put into the dump that was begun
last; records before the first session go to a dump without a name (`Payload.add`). What
cannot be read is reported with the offset of its block (`Payload.decode`).

Writing leaves out the records without a hit (`Payload.encode`).
-/

namespace TestCoverage

/-- Why a payload cannot be read: the fault, and the offset of its block. -/
structure MalformedPayload where
  provenance : String
  offset : Nat
  fault : Block.Fault
deriving DecidableEq, Repr

/-- The wording of the fault, with the place where the payload comes from. -/
def MalformedPayload.message (malformed : MalformedPayload) : String :=
  "malformed execution data in " ++ malformed.provenance ++ " at offset " ++
    toString malformed.offset ++ ": " ++ malformed.fault.message

namespace Payload

/-! ## Reading -/

/-- The dumps so far, the last one first, with one more block. -/
def add (dumps : List Dump) : Block → Except MergeFault (List Dump)
  | .header => .ok dumps
  | .session session => .ok (.ofSession session :: dumps)
  | .record record =>
    match dumps with
    | [] => (ProbeStore.empty.put record).map fun store => [⟨.anonymous, store⟩]
    | dump :: others => (dump.store.put record).map fun store => ⟨dump.session, store⟩ :: others

/-- Reads blocks one after the other. Every block takes at least one byte, so as many steps
suffice as there are bytes. -/
def readFrom : Nat → List Dump → Cursor → Except (Nat × Block.Fault) (List Dump)
  | _, dumps, ⟨_, []⟩ => .ok dumps.reverse
  | 0, dumps, ⟨_, _ :: _⟩ => .ok dumps.reverse
  | steps + 1, dumps, ⟨offset, byte :: rest⟩ =>
    match Block.read byte ⟨offset + 1, rest⟩ with
    | .error fault => .error (offset, fault)
    | .ok (block, left) =>
      match add dumps block with
      | .error fault => .error (offset, .incompatible fault)
      | .ok dumps => readFrom steps dumps left

def read (bytes : Bytes) : Except (Nat × Block.Fault) (List Dump) :=
  match bytes with
  | [] => .ok []
  | byte :: _ =>
    if byte ≠ Block.Kind.header.byte then .error (0, .missingHeader byte)
    else readFrom bytes.length [] (.start bytes)

/-- The dumps in a payload from a known place. -/
def decode (bytes : Bytes) (provenance : String) : Except MalformedPayload (List Dump) :=
  (read bytes).mapError fun (offset, fault) => ⟨provenance, offset, fault⟩

/-! ## Writing -/

def writeSession (session : Session) : Block.Output := (Block.session session).write

def writeRecord (record : ProbeRecord) : Block.Output :=
  if record.hits.any then (Block.record record).write else .ofBytes []

/-- Writes a dump: its session, then its records. -/
def writeDump (dump : Dump) : Block.Output :=
  dump.store.records.foldl (fun output record => output ++ writeRecord record)
    (writeSession dump.session)

def write (dumps : List Dump) : Block.Output :=
  dumps.foldl (fun output dump => output ++ writeDump dump) Block.header.write

def encode (dumps : List Dump) : Except Block.Rejection Bytes :=
  let output := write dumps
  match output.rejection with
  | some rejection => .error rejection
  | none => .ok output.bytes

end Payload

end TestCoverage

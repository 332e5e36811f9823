import TestCoverage.Dump.Payload
import TestCoverage.Files.Path

/-!
# Payloads in files

`Payload.load` reads the payload in a file, and faults say its path. A directory can be opened
like a file, but then nothing can be read. `Payload.save` writes a payload to a file. What the
format cannot hold ends the payload there, and the file keeps what was written before.
-/

namespace TestCoverage

/-- Why a file has no dumps. -/
inductive LoadFault where
  | unopened (path : Bytes)
  | malformed (fault : MalformedPayload)
deriving DecidableEq, Repr

def LoadFault.message : LoadFault → String
  | .unopened path => "unable to open execution data `" ++ path.toText ++ "`"
  | .malformed fault => fault.message

/-- Why dumps are not in a file. -/
inductive SaveFault where
  | uncreated (path : Bytes)
  | rejected (rejection : Block.Rejection)
deriving DecidableEq, Repr

def SaveFault.message : SaveFault → String
  | .uncreated path => "unable to create execution data `" ++ path.toText ++ "`"
  | .rejected rejection => rejection.message

namespace Payload

/-- The dumps in the file that a path leads to. -/
def load (tree : FileTree) (path : Bytes) : Except LoadFault (List Dump) :=
  match tree.read path with
  | .ok bytes => (decode bytes path.toText).mapError .malformed
  | .error .isDirectory => .error (.malformed ⟨path.toText, 0, .unreadable⟩)
  | .error _ => .error (.unopened path)

/-- The tree with the payload of some dumps in the file that a path leads to, as far as it could
be written. -/
def save (tree : FileTree) (path : Bytes) (dumps : List Dump) :
    FileTree × Except SaveFault Unit :=
  let output := write dumps
  match tree.write path output.bytes with
  | .error _ => (tree, .error (.uncreated path))
  | .ok tree =>
    match output.rejection with
    | some rejection => (tree, .error (.rejected rejection))
    | none => (tree, .ok ())

end Payload

end TestCoverage

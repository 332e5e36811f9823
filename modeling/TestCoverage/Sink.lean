import TestCoverage.Text.Utf8

/-!
# Sinks

A sink takes the bytes of a report or payload. It may have room for a limited number of
bytes only: then it keeps what fits and refuses the rest. Writing nothing never fails.
-/

namespace TestCoverage

/-- A place to write to, with what was written. -/
structure Sink where
  /-- The number of bytes there is room for, if it is limited. -/
  limit : Option Nat
  written : Bytes
deriving DecidableEq, Repr

namespace Sink

def fresh (limit : Option Nat) : Sink := ⟨limit, []⟩

/-- How many of `count` more bytes there is room for. -/
def room (sink : Sink) (count : Nat) : Nat :=
  match sink.limit with
  | none => count
  | some limit => min count (limit - sink.written.length)

/-- Writes as many of the bytes as there is room for, and says whether those were all. -/
def write (sink : Sink) (bytes : Bytes) : Sink × Bool :=
  let room := sink.room bytes.length
  (⟨sink.limit, sink.written ++ bytes.take room⟩, room == bytes.length)

def writeText (sink : Sink) (text : String) : Sink × Bool := sink.write (Bytes.ofString text)

end Sink

end TestCoverage

import TestCoverage.Probe.Session
import TestCoverage.Probe.Store

/-!
# Dumps

A dump is what one session recorded. Several dumps combine into one: its session spans
theirs, and its store merges theirs one after the other.
-/

namespace TestCoverage

/-- The records of one session. -/
structure Dump where
  session : Session
  store : ProbeStore

namespace Dump

/-- The dump of a session that recorded nothing. -/
def ofSession (session : Session) : Dump := ⟨session, .empty⟩

/-- The dump for records that belong to no session. -/
def anonymous : Dump := ofSession .anonymous

instance : Inhabited Dump := ⟨anonymous⟩

/-- The stores of the dumps merged in order, with the faults of the records left out. -/
def mergeStores (dumps : List Dump) : ProbeStore × List MergeFault :=
  dumps.foldl (fun (store, faults) dump =>
    let (merged, more) := store.merge dump.store
    (merged, faults ++ more)) (.empty, [])

/-- The dumps as one session of the given name, with the faults of the records left out. -/
def combine (id : String) (dumps : List Dump) : Dump × List MergeFault :=
  let (store, faults) := mergeStores dumps
  (⟨Session.spanning id (dumps.map (·.session)), store⟩, faults)

end Dump

end TestCoverage

import TestCoverage.OrderedMap
import TestCoverage.Probe.Record

/-!
# Probe stores

A store holds at most one record for each class version, by ascending identifiers. A record
that is put into a store merges with the one that is there; a record that does not merge is
refused and leaves the store as it was.
-/

namespace TestCoverage

/-- Probe records by class version. -/
structure ProbeStore where
  byId : OrderedMap ClassId Hits

namespace ProbeStore

def empty : ProbeStore := ⟨.empty⟩

instance : Inhabited ProbeStore := ⟨empty⟩

def find? (store : ProbeStore) (id : ClassId) : Option Hits := store.byId.find? id

def records (store : ProbeStore) : List ProbeRecord :=
  store.byId.entries.map fun (id, hits) => ⟨id, hits⟩

def size (store : ProbeStore) : Nat := store.byId.size

def isEmpty (store : ProbeStore) : Bool := store.byId.isEmpty

def put (store : ProbeStore) (record : ProbeRecord) : Except MergeFault ProbeStore :=
  match store.find? record.id with
  | none => .ok ⟨store.byId.set record.id record.hits⟩
  | some existing =>
    (existing.merge record.id record.hits).map fun merged =>
      ⟨store.byId.set record.id merged⟩

/-- Puts a record if it merges, and notes the fault if it does not. -/
def offer (state : ProbeStore × List MergeFault) (record : ProbeRecord) :
    ProbeStore × List MergeFault :=
  match state.1.put record with
  | .ok store => (store, state.2)
  | .error fault => (state.1, state.2 ++ [fault])

/-- The store with every record of another store that merges, and the faults of those that
do not, by ascending identifiers. -/
def merge (store other : ProbeStore) : ProbeStore × List MergeFault :=
  other.records.foldl offer (store, [])

end ProbeStore

end TestCoverage

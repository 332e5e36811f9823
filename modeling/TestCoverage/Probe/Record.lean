import TestCoverage.Checksum

/-!
# Probe records

A probe record says which probes of one class version were hit. Records of one version
merge if they agree on the name of the class and on the number of probes; then a probe is
hit in the merged record if it is hit in either.
-/

namespace TestCoverage

/-- The probes of a class that were hit, with the name of the class. -/
structure Hits where
  className : String
  probes : List Bool
deriving DecidableEq, Repr

/-- Why two records of one class version do not merge. -/
inductive MergeFault where
  /-- The records name different classes. -/
  | className (id : ClassId) (existing incoming : String)
  /-- The records of a class of this name have different numbers of probes. -/
  | probeCount (id : ClassId) (name : String) (existing incoming : Nat)
deriving DecidableEq, Repr

def MergeFault.message : MergeFault → String
  | .className id existing incoming =>
    "different class names `" ++ existing ++ "` and `" ++ incoming ++ "` for class id " ++
      id.render
  | .probeCount id name existing incoming =>
    "incompatible execution data for class `" ++ name ++ "` with id " ++ id.render ++
      ": " ++ toString existing ++ " vs " ++ toString incoming ++ " probes"

namespace Hits

def any (hits : Hits) : Bool := hits.probes.any id

/-- The probes that were hit in either record of the version `id`. A different name is
reported before a different number of probes. -/
def merge (id : ClassId) (hits incoming : Hits) : Except MergeFault Hits :=
  if hits.className ≠ incoming.className then
    .error (.className id hits.className incoming.className)
  else if hits.probes.length ≠ incoming.probes.length then
    .error (.probeCount id hits.className hits.probes.length incoming.probes.length)
  else .ok ⟨hits.className, List.zipWith (· || ·) hits.probes incoming.probes⟩

end Hits

/-- What was recorded for one class version. -/
structure ProbeRecord where
  id : ClassId
  hits : Hits
deriving DecidableEq, Repr

end TestCoverage

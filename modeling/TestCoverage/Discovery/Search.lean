import TestCoverage.Discovery.Listing

/-!
# Searching roots for classes

A search has roots to look below, rules for the locations, and a policy for conflicts. Every
root must exist before anything is looked at.
-/

namespace TestCoverage

/-- Why a search cannot begin. -/
inductive RootFault where
  | missing (root : Bytes)
  | unreadable (root : Bytes)
deriving DecidableEq, Repr

def RootFault.message : RootFault → String
  | .missing root => "class root `" ++ root.toText ++ "` does not exist"
  | .unreadable root => "class root `" ++ root.toText ++ "` is not readable"

/-- Where to look for classes, and which to take. -/
structure Search where
  roots : List Bytes
  rules : Rules
  policy : ConflictPolicy
deriving DecidableEq, Repr

/-- Why a search makes no catalog. -/
inductive SearchFault where
  | root (fault : RootFault)
  | conflict (conflict : Conflict)
  /-- The survey takes more steps than are allowed. -/
  | endless
deriving DecidableEq, Repr

def SearchFault.message : SearchFault → String
  | .root fault => fault.message
  | .conflict found => found.message
  | .endless => "archives are nested without end"

namespace Search

def checkRoot (tree : FileTree) (root : Bytes) : Except RootFault Unit :=
  match tree.resolve root with
  | .ok _ => .ok ()
  | .error .notFound => .error (.missing root)
  | .error _ => .error (.unreadable root)

def listing (search : Search) (tree : FileTree) : Except SearchFault (List Listed) := do
  (search.roots.forM (checkRoot tree)).mapError .root
  let opener := Archive.members Survey.largestMember
  match (Survey.ofRoots search.roots).run tree.walk opener Survey.allowance with
  | some sightings => .ok (Listing.ofSightings search.rules search.policy .empty sightings)
  | none => .error .endless

/-- The catalog of the classes below the roots, with what is noted. -/
def catalog (search : Search) (tree : FileTree) :
    List ListingNotice × Except SearchFault Catalog :=
  match search.listing tree with
  | .error fault => ([], .error fault)
  | .ok listing =>
    let (notices, outcome) := Listing.catalog listing
    (notices, outcome.mapError .conflict)

end Search

end TestCoverage

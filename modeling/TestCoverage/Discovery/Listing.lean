import TestCoverage.Catalog
import TestCoverage.Discovery.Survey
import TestCoverage.Location.Rules

/-!
# Listings of classes

A listing goes through the class files that a survey sighted and keeps those at wanted
locations. The first definition of each class name counts. A later definition of the name is
passed over if it is the same version; if it is another one there is a conflict, which stops
the making of a catalog, or is only noted, as the policy says.
-/

namespace TestCoverage

/-- Two definitions of one class name. -/
structure Conflict where
  name : String
  first : Location
  firstId : ClassId
  second : Location
  secondId : ClassId
deriving DecidableEq, Repr

def Conflict.message (conflict : Conflict) : String :=
  "class `" ++ conflict.name ++ "` has conflicting definitions: " ++
    conflict.firstId.render ++ " at `" ++ conflict.first.path ++ "` and " ++
    conflict.secondId.render ++ " at `" ++ conflict.second.path ++ "`"

/-- What becomes of conflicts. -/
inductive ConflictPolicy where
  | fail
  | keepFirst
deriving DecidableEq, Repr

/-- What is noted while classes are listed. -/
inductive ListingNotice where
  | survey (notice : SurveyNotice)
  | malformed (fault : ClassFile.Fault)
  | conflict (conflict : Conflict)
deriving DecidableEq, Repr

def ListingNotice.message : ListingNotice → String
  | .survey notice => notice.message
  | .malformed fault => "skipping malformed class file: " ++ fault.message
  | .conflict found => found.message ++ "; keeping the first definition"

/-- What a listing has, in order. -/
inductive Listed where
  | definition (definition : ClassDefinition)
  | conflict (conflict : Conflict)
  | notice (notice : ListingNotice)
deriving DecidableEq, Repr

namespace Listing

/-- The first definition of each class name so far: its version and location. -/
abbrev Known := OrderedMap String (ClassId × Location)

/-- What a listing has for a definition, and what is known afterwards. -/
def classify (policy : ConflictPolicy) (known : Known) (definition : ClassDefinition) :
    Option Listed × Known :=
  match known.find? definition.name with
  | none =>
    (some (.definition definition),
      known.set definition.name (definition.id, definition.location))
  | some (id, location) =>
    if id = definition.id then (none, known)
    else
      let conflict : Conflict :=
        { name := definition.name, first := location, firstId := id,
          second := definition.location, secondId := definition.id }
      match policy with
      | .fail => (some (.conflict conflict), known)
      | .keepFirst => (some (.notice (.conflict conflict)), known)

/-- What a listing has for a sighting, and what is known afterwards. -/
def step (rules : Rules) (policy : ConflictPolicy) (known : Known) :
    Sighting → Option Listed × Known
  | .notice notice => (some (.notice (.survey notice)), known)
  | .classFile location bytes =>
    if !rules.wants location.path then (none, known)
    else
      match ClassDefinition.read location bytes with
      | .error fault => (some (.notice (.malformed fault)), known)
      | .ok definition => classify policy known definition

def ofSightings (rules : Rules) (policy : ConflictPolicy) :
    Known → List Sighting → List Listed
  | _, [] => []
  | known, sighting :: rest =>
    match step rules policy known sighting with
    | (none, known) => ofSightings rules policy known rest
    | (some listed, known) => listed :: ofSightings rules policy known rest

def notices (listing : List Listed) : List ListingNotice :=
  listing.filterMap fun
    | .notice notice => some notice
    | _ => none

/-- The catalog of a listing, or its first conflict, with what is noted until then. -/
def catalogFrom : Catalog → List ListingNotice → List Listed →
    List ListingNotice × Except Conflict Catalog
  | catalog, noted, [] => (noted, .ok catalog)
  | catalog, noted, .definition definition :: rest =>
    catalogFrom (catalog.insert definition) noted rest
  | catalog, noted, .notice notice :: rest => catalogFrom catalog (noted ++ [notice]) rest
  | _, noted, .conflict conflict :: _ => (noted, .error conflict)

/-- The catalog of a listing, or its first conflict, with what is noted until then. -/
def catalog (listing : List Listed) : List ListingNotice × Except Conflict Catalog :=
  catalogFrom .empty [] listing

end Listing

end TestCoverage

import TestCoverage.Discovery.Search
import TestCoverage.Json.Record

/-!
# Settings

Settings say where the classes under test are and which of them to take. They are written as
a JSON record; at least one root is required. Rules may come from a file as well.
-/

namespace TestCoverage

/-- Where the classes under test are, and which to take. -/
structure Settings where
  classRoots : List String
  includes : List String
  excludes : List String
  /-- A file with more rules. -/
  rulesFile : Option String
  /-- Of two definitions of one class name the first is taken. -/
  keepFirst : Bool
  /-- The module that the test list says, whatever the test framework reports. -/
  moduleName : Option String
deriving DecidableEq, Repr

/-- Why there are no settings, or no rules in them. -/
inductive SettingsFault where
  /-- The text is not settings in JSON. -/
  | malformed
  | noRoots
  | unreadableFile (path : Bytes)
  /-- What is wrong with the settings in a file. -/
  | inFile (path : Bytes) (fault : SettingsFault)
  | unreadableRules (path : Bytes)
deriving DecidableEq, Repr

/-- What lies at the bottom of a fault and is described by whoever found it. -/
inductive SettingsCause where
  | json
  | file
deriving DecidableEq, Repr

namespace SettingsFault

/-- The wording of a fault from the outside in, as far as it is known here. -/
def contexts : SettingsFault → List String
  | .malformed => []
  | .noRoots => ["at least one class root is required"]
  | .unreadableFile path => ["unable to read config `" ++ path.toText ++ "`"]
  | .inFile path fault => ("invalid config `" ++ path.toText ++ "`") :: fault.contexts
  | .unreadableRules path => ["unable to read location filter `" ++ path.toText ++ "`"]

/-- What lies at the bottom of a fault, if it is not described yet. -/
def cause? : SettingsFault → Option SettingsCause
  | .malformed => some .json
  | .noRoots => none
  | .unreadableFile _ => some .file
  | .inFile _ fault => fault.cause?
  | .unreadableRules _ => some .file

end SettingsFault

namespace Settings

def fieldNames : List String :=
  ["class_roots", "location_includes", "location_excludes", "location_filter",
    "ignore_duplicate_classes", "module"]

def ofJson? (value : Json) : Option Settings := do
  let record ← Json.Record.ofJson? fieldNames value
  let texts := Json.asList? Json.asText?
  return {
    classRoots := ← record.required "class_roots" texts
    includes := ← record.defaulting "location_includes" [] texts
    excludes := ← record.defaulting "location_excludes" [] texts
    rulesFile := ← record.optional "location_filter" Json.asText?
    keepFirst := ← record.defaulting "ignore_duplicate_classes" false Json.asBool?
    moduleName := ← record.optional "module" Json.asText? }

/-- There is something to look at. -/
def check (settings : Settings) : Except SettingsFault Unit :=
  if settings.classRoots.isEmpty then .error .noRoots else .ok ()

def read (text : String) : Except SettingsFault Settings := do
  match (Json.read text).bind ofJson? with
  | none => .error .malformed
  | some settings =>
    settings.check
    return settings

def load (tree : FileTree) (path : Bytes) : Except SettingsFault Settings :=
  match tree.readText path with
  | none => .error (.unreadableFile path)
  | some text => (read text).mapError (.inFile path)

/-- The rules of the settings, those of the rules file among them. -/
def rules (settings : Settings) (tree : FileTree) : Except SettingsFault Rules :=
  let own := Rules.ofTexts settings.includes settings.excludes
  match settings.rulesFile with
  | none => .ok own
  | some path =>
    match tree.readText path with
    | none => .error (.unreadableRules path)
    | some text => .ok (own.extend (Rules.read text))

def policy (settings : Settings) : ConflictPolicy :=
  if settings.keepFirst then .keepFirst else .fail

def search (settings : Settings) (tree : FileTree) : Except SettingsFault Search := do
  return ⟨settings.classRoots.map Bytes.ofString, ← settings.rules tree, settings.policy⟩

end Settings

end TestCoverage

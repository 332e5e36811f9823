import TestCoverage.Archive.Member
import TestCoverage.ClassFile.Content
import TestCoverage.Files.Walk
import TestCoverage.Location

/-!
# Surveys of class files

A survey goes through roots, the files below them and archives, in archives too, and comes upon
class files. It keeps the roots that it has not begun and the directories and archives that it is
in the middle of, the innermost first (`Survey`). One step takes one thing from the innermost
(`Survey.next`): a class file is sighted, an archive is gone into before the rest of what holds
it, and anything else is passed over.

How a root is walked and an archive is opened are parameters: any functions to finite lists will
do. An archive is opened with the knowledge whether its bytes are on disk or, like those of a
member, in memory. Since members may be compressed, an archive may hold itself, and then a survey
does not end; `Survey.run` therefore takes a number of steps and has no answer if they do not
suffice.
-/

namespace TestCoverage

/-- What keeps a survey from seeing something. -/
inductive SurveyNotice where
  | unreadableEntry
  | unreadableFile (location : Location)
  | unreadableArchive (location : Location)
  | unreadableMember (position : Nat) (archive : Location)
  | corruptMember (location : Location)
  | largeMember (location : Location) (size : Nat)
  | oversizedMember (location : Location)
deriving DecidableEq, Repr

def SurveyNotice.message : SurveyNotice → String
  | .unreadableEntry => "skipping unreadable directory entry"
  | .unreadableFile location => "unable to read `" ++ location.path ++ "`"
  | .unreadableArchive location => "skipping unreadable archive `" ++ location.path ++ "`"
  | .unreadableMember position archive =>
    "skipping unreadable entry " ++ toString position ++ " of `" ++ archive.path ++ "`"
  | .corruptMember location =>
    "skipping unreadable archive entry `" ++ location.path ++ "`"
  | .largeMember location size =>
    "skipping archive entry `" ++ location.path ++ "` declaring " ++ toString size ++ " bytes"
  | .oversizedMember location =>
    "skipping oversized archive entry `" ++ location.path ++ "`"

/-- What a survey comes upon. -/
inductive Sighting where
  | classFile (location : Location) (bytes : Bytes)
  | notice (notice : SurveyNotice)
deriving DecidableEq, Repr

/-- A directory or archive that a survey is in the middle of, with what is left of it. -/
inductive SurveyFrame where
  | directory (rest : List FileTree.Walked)
  /-- The members from a position on. -/
  | archive (location : Location) (position : Nat) (rest : List Member)

/-- What a survey has still to go through. -/
structure Survey where
  /-- The roots that were not begun. -/
  roots : List Bytes
  /-- What was begun and not finished, the innermost first. -/
  frames : List SurveyFrame

namespace Survey

/-- How a root is walked: what the walk comes upon, in order. -/
abbrev Walker := Bytes → List FileTree.Walked

/-- How an archive is opened: its members in order, unless the bytes are no archive. -/
abbrev Opener := Archive.Medium → ByteArray → Option (List Member)

/-- The largest member that is looked at. -/
def largestMember : Nat := 1 <<< 30

def ofRoots (roots : List Bytes) : Survey := ⟨roots, []⟩

/-- Looks at some content: what is sighted, and the archive to go into. -/
def visit (opener : Opener) (medium : Archive.Medium) (location : Location) (data : ByteArray) :
    Option Sighting × List SurveyFrame :=
  match Content.ofFile data with
  | .classFile => (some (.classFile location data.data.toList), [])
  | .unknown => (none, [])
  | .archive =>
    match opener medium data with
    | none => (some (.notice (.unreadableArchive location)), [])
    | some members => (none, [.archive location 0 members])

/-- Looks at something that a walk came upon. -/
def visitWalked (opener : Opener) : FileTree.Walked → Option Sighting × List SurveyFrame
  | .file path bytes => visit opener .disk (Location.ofPath path) bytes.toByteArray
  | .unreadableFile path => (some (.notice (.unreadableFile (Location.ofPath path))), [])
  | .unreadable => (some (.notice .unreadableEntry), [])

/-- Looks at the member at a position of an archive. -/
def visitMember (opener : Opener) (archive : Location) (position : Nat) :
    Member → Option Sighting × List SurveyFrame
  | .unreadable => (some (.notice (.unreadableMember position archive)), [])
  | .directory => (none, [])
  | .file name size data =>
    let location := archive.member name
    if largestMember < size then (some (.notice (.largeMember location size)), [])
    else
      match data with
      | none => (some (.notice (.corruptMember location)), [])
      | some data =>
        if largestMember < data.size then (some (.notice (.oversizedMember location)), [])
        else visit opener .memory location data

/-- Takes one step, unless the survey is at its end: what is sighted, and what is left to go
through. -/
def next (walker : Walker) (opener : Opener) (survey : Survey) :
    Option (Option Sighting × Survey) :=
  match survey.frames with
  | [] =>
    match survey.roots with
    | [] => none
    | root :: roots => some (none, ⟨roots, [.directory (walker root)]⟩)
  | .directory [] :: frames => some (none, { survey with frames })
  | .directory (walked :: rest) :: frames =>
    let (sighting?, inside) := visitWalked opener walked
    some (sighting?, { survey with frames := inside ++ .directory rest :: frames })
  | .archive _ _ [] :: frames => some (none, { survey with frames })
  | .archive location position (member :: rest) :: frames =>
    let (sighting?, inside) := visitMember opener location position member
    some (sighting?,
      { survey with frames := inside ++ .archive location (position + 1) rest :: frames })

/-- Takes up to the given number of steps, the one that finds the end among them. `seen` is what
was sighted before, the last one first. -/
def runFrom (walker : Walker) (opener : Opener) :
    Nat → List Sighting → Survey → Option (List Sighting)
  | 0, _, _ => none
  | steps + 1, seen, survey =>
    match survey.next walker opener with
    | none => some seen.reverse
    | some (sighting?, survey) => runFrom walker opener steps (sighting?.toList ++ seen) survey

/-- Everything that is sighted, if the steps suffice. -/
def run (walker : Walker) (opener : Opener) (steps : Nat) (survey : Survey) :
    Option (List Sighting) :=
  runFrom walker opener steps [] survey

/-- The steps that are allowed for files as they are found in practice. -/
def allowance : Nat := 1 <<< 60

end Survey

end TestCoverage

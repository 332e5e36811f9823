import TestCoverage.Text.Cut
import TestCoverage.Text.Utf8

/-!
# Locations of files

A location names a file on disk or a member of an archive, however deep the archives are
nested: the path of the file on disk, then the name of the member inside each archive, with
`@` between them, as in `app.war@WEB-INF/lib/core.jar@com/foo/Bar.class`. Separators inside
paths and names are written `/`. A location is text, but a path on disk is any bytes: what is not
UTF-8 in it is written U+FFFD.
-/

namespace TestCoverage

/-- Where a file is, on disk or inside archives. -/
structure Location where
  path : String
deriving DecidableEq, Repr, Inhabited

namespace Location

/-- Stands between an archive and the name of a member. -/
def memberMark : Char := '@'

def normalize (path : String) : String :=
  String.ofList (path.toList.map fun c => if c = '\\' then '/' else c)

/-- The location of a file on disk. -/
def ofPath (path : Bytes) : Location := ⟨normalize path.toText⟩

/-- The location of a member of the archive at this location. -/
def member (archive : Location) (name : String) : Location :=
  ⟨archive.path ++ String.singleton memberMark ++ normalize name⟩

/-- The file on disk, then the name of the member in each archive. -/
def segments (location : Location) : List String :=
  (Text.split (· == memberMark) location.path.toList).map String.ofList

/-- The location is inside an archive. -/
def isMember (location : Location) : Bool := location.path.toList.contains memberMark

/-- The last part of the path or member name. -/
def fileName (location : Location) : String :=
  String.ofList (Text.afterLast (fun c => c == '/' || c == memberMark) location.path.toList)

end Location

end TestCoverage

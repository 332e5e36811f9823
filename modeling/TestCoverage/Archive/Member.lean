import TestCoverage.Archive.Crc32
import TestCoverage.Archive.Directory
import TestCoverage.Archive.Inflate

/-!
# The members of an archive

The members in the order of the directory, each with its data if it can be had
(`Archive.members`). The data of a member is stored or deflated, and must have the checksum that
the directory says. Members may be very large, so data is taken only up to a bound.
-/

namespace TestCoverage

/-- A member of an archive. -/
inductive Member where
  /-- The member cannot be read at all. -/
  | unreadable
  | directory
  /-- A file with the size that the archive declares, and its data unless that is corrupt. -/
  | file (name : String) (size : Nat) (data : Option ByteArray)

namespace Archive

def isDirectoryName (name : String) : Bool :=
  name.toList.getLast? == some '/' || name.toList.getLast? == some '\\'

/-- The bytes that the archive keeps for an entry: from behind the member's own header, as far
as the file goes. -/
def keptBytes (file : ByteArray) (entry : Entry) : Option ByteArray := do
  if (← field file entry.headerStart 4) ≠ 0x04034B50 then none
  else
    let nameLength ← field file (entry.headerStart + 26) 2
    let extraLength ← field file (entry.headerStart + 28) 2
    let start := entry.headerStart + 30 + nameLength + extraLength
    return file.extract start (min (start + entry.compressedSize) file.size)

/-- The data that some kept bytes stand for, by the method of the entry. -/
def expand (bound : Nat) (method : Nat) (kept : ByteArray) : Option ByteArray :=
  if method = 8 then inflate bound kept else some kept

/-- The data, if it has the checksum of the entry. Data beyond the bound is not checked, since it
may be cut off. -/
def checked (bound : Nat) (entry : Entry) (data : ByteArray) : Option ByteArray :=
  if bound < data.size ∨ (crc32 data).toNat = entry.checksum then some data else none

/-- The member of an entry. A size beyond the bound is reason enough not to take any data. -/
def member (bound : Nat) (file : ByteArray) (entry : Entry) : Member :=
  if entry.encrypted || entry.enciphered then .unreadable
  else
    match keptBytes file entry with
    | none => .unreadable
    | some kept =>
      if entry.method ≠ 0 ∧ entry.method ≠ 8 then .unreadable
      else if isDirectoryName entry.name then .directory
      else if bound < entry.size then .file entry.name entry.size none
      else
        .file entry.name entry.size ((expand bound entry.method kept).bind (checked bound entry))

/-- The members of the archive that a file is, if its directory can be read. Of data with more
bytes than the bound it is enough to show that there are more. -/
def members (bound : Nat) (medium : Medium) (file : ByteArray) : Option (List Member) :=
  (readDirectory medium file).map fun entries => entries.map (member bound file)

end Archive

end TestCoverage

import TestCoverage.Text.Utf8

/-!
# The directory of an archive

A zip archive ends with a record that says where its directory is; the directory has one
entry for each member. Archives with more than 65535 members or four gigabytes keep the
numbers in a second record of 64-bit fields, found through a locator right before the first.
Bytes in front of the archive are allowed for: what the ending record says of positions is
compared with where that record stands.
-/

namespace TestCoverage.Archive

/-- Where the bytes of an archive are. -/
inductive Medium where
  | disk
  | memory
deriving DecidableEq, Repr

/-- The last position that can be gone to, whether or not there are bytes. A file on disk has
fewer than 2³² blocks of 4096 bytes, and in memory positions are 64-bit numbers. -/
def Medium.lastPosition : Medium → Nat
  | .disk => 4096 * (UInt32.size - 1)
  | .memory => UInt64.size - 1

/-- The number at a position, least significant byte first, if the file goes that far. -/
def field (file : ByteArray) (position width : Nat) : Option Nat :=
  if position + width ≤ file.size then
    some (Bytes.ofLittleEndian (file.extract position (position + width)).data.toList)
  else none

/-- The bytes at a position, if the file goes that far. -/
def slice (file : ByteArray) (position count : Nat) : Option Bytes :=
  if position + count ≤ file.size then
    some (file.extract position (position + count)).data.toList
  else none

/-! ## The record at the end -/

/-- What the ending record says. -/
structure Ending where
  /-- Where the record stands. -/
  position : Nat
  disk : Nat
  directoryDisk : Nat
  membersOnDisk : Nat
  members : Nat
  directorySize : Nat
  directoryOffset : Nat
  commentLength : Nat
deriving Repr

/-- The last position at or before the given one where the signature of an ending record
stands, as far back as a comment allows. -/
def findEnding (file : ByteArray) : Nat → Nat → Option Nat
  | 0, position => if field file position 4 = some 0x06054B50 then some position else none
  | back + 1, position =>
    if field file position 4 = some 0x06054B50 then some position
    else
      match position with
      | 0 => none
      | position + 1 => findEnding file back position

/-- Reads the ending record, with the comment that belongs to it. -/
def readEnding (file : ByteArray) : Option Ending := do
  if file.size < 22 then none
  else
    let position ← findEnding file 65535 (file.size - 22)
    let disk ← field file (position + 4) 2
    let directoryDisk ← field file (position + 6) 2
    let membersOnDisk ← field file (position + 8) 2
    let members ← field file (position + 10) 2
    let directorySize ← field file (position + 12) 4
    let directoryOffset ← field file (position + 16) 4
    let commentLength ← field file (position + 20) 2
    let _ ← slice file (position + 22) commentLength
    return { position, disk, directoryDisk, membersOnDisk, members, directorySize,
             directoryOffset, commentLength }

/-- The fields of the record have no room for what they should say. -/
def Ending.isTooSmall (ending : Ending) : Bool :=
  ending.disk == 0xFFFF || ending.directoryDisk == 0xFFFF || ending.membersOnDisk == 0xFFFF ||
    ending.members == 0xFFFF || ending.directorySize == 0xFFFFFFFF ||
    ending.directoryOffset == 0xFFFFFFFF

/-- Where the directory begins, how many entries it has, and how far the archive is shifted
from the beginning of the file. -/
structure Extent where
  shift : Nat
  start : Nat
  count : Nat
deriving Repr

/-- The position of a record with 64-bit fields, searched from the position where it should
be. -/
def findWide (file : ByteArray) (bound : Nat) : Nat → Nat → Option Nat
  | 0, _ => none
  | steps + 1, position =>
    if bound < position then none
    else if field file position 4 = some 0x06064B50 then some position
    else findWide file bound steps (position + 1)

def Ending.extent (ending : Ending) (file : ByteArray) : Option Extent :=
  let locator := file.size - (42 + ending.commentLength)
  let isWide := 42 + ending.commentLength ≤ file.size ∧
    field file locator 4 = some 0x07064B50
  if isWide then do
    let directoryDisk ← field file (locator + 4) 4
    let nominal ← field file (locator + 8) 8
    if !ending.isTooSmall ∧ ending.disk ≠ directoryDisk then none
    else if ending.position < 60 then none
    else
      let position ← findWide file (ending.position - 60) (file.size + 1) nominal
      let disk ← field file (position + 16) 4
      let otherDisk ← field file (position + 20) 4
      let count ← field file (position + 32) 8
      let offset ← field file (position + 48) 8
      if disk ≠ otherDisk then none
      else
        let shift := position - nominal
        return ⟨shift, offset + shift, count⟩
  else if ending.position < ending.directorySize + ending.directoryOffset then none
  else
    let shift := ending.position - ending.directorySize - ending.directoryOffset
    some ⟨shift, ending.directoryOffset + shift, ending.membersOnDisk⟩

/-! ## The entries -/

/-- What the directory says of a member. -/
structure Entry where
  name : String
  encrypted : Bool
  /-- The extra fields say how the member is enciphered. -/
  enciphered : Bool
  method : Nat
  checksum : Nat
  compressedSize : Nat
  size : Nat
  /-- Where the member's own header stands. -/
  headerStart : Nat
deriving Repr

/-- The characters of the bytes from 80 on in the code page that names are written in unless
an entry says UTF-8. -/
def upperCodePage : Array Char :=
  ("ÇüéâäàåçêëèïîìÄÅÉæÆôöòûùÿÖÜ¢£¥₧ƒáíóúñÑªº¿⌐¬½¼¡«»" ++
    "░▒▓│┤╡╢╖╕╣║╗╝╜╛┐└┴┬├─┼╞╟╚╔╩╦╠═╬╧╨╤╥╙╘╒╓╫╪┘┌█▄▌▐▀" ++
    "αßΓπΣσµτΦΘΩδ∞φε∩≡±≥≤⌠⌡÷≈°∙·√ⁿ²■\u00A0").toList.toArray

def codePageChar (b : UInt8) : Char :=
  if b < 0x80 then Char.ofNat b.toNat else upperCodePage[b.toNat - 0x80]?.getD '\uFFFD'

/-- A number with the bytes after it: a full 32-bit field stands for a 64-bit number that is
read off the bytes. There is none if those are cut off. -/
def widen (value : Nat) (bytes : Bytes) : Option (Nat × Bytes) :=
  if value ≠ 0xFFFFFFFF then some (value, bytes)
  else if bytes.length < 8 then none
  else some (Bytes.ofLittleEndian (bytes.take 8), bytes.drop 8)

/-- Reads the 64-bit numbers of an entry, with the bytes after them unless they are cut off. -/
def readWide (entry : Entry) (bytes : Bytes) : Entry × Option Bytes :=
  match widen entry.size bytes with
  | none => (entry, none)
  | some (size, bytes) =>
    match widen entry.compressedSize bytes with
    | none => ({ entry with size }, none)
    | some (compressedSize, bytes) =>
      match widen entry.headerStart bytes with
      | none => ({ entry with size, compressedSize }, none)
      | some (headerStart, bytes) => ({ entry with size, compressedSize, headerStart }, some bytes)

/-- What the extra field of an enciphered member says: the method under the cipher. It must be
seven bytes of a known version, vendor and strength. -/
def readCipher : Bytes → Option Nat
  | [v₀, v₁, d₀, d₁, strength, m₀, m₁] =>
    if [1, 2].contains (Bytes.ofLittleEndian [v₀, v₁]) ∧ [d₀, d₁] = [0x41, 0x45] ∧
        [1, 2, 3].contains strength then
      some (Bytes.ofLittleEndian [m₀, m₁])
    else none
  | _ => none

/-- Reads the extra fields of an entry: 64-bit numbers and what is said of a cipher. A field
that is cut off ends the extra fields. What is said of a cipher must be in order, and seven
more bytes are passed over after it. Every extra field takes four bytes at least. -/
def readExtra : Nat → Bytes → Entry → Option Entry
  | 0, _, entry => some entry
  | steps + 1, extra, entry =>
    match extra with
    | k₀ :: k₁ :: l₀ :: l₁ :: rest =>
      let kind := Bytes.ofLittleEndian [k₀, k₁]
      let length := Bytes.ofLittleEndian [l₀, l₁]
      if kind = 0x0001 then
        match readWide entry rest with
        | (entry, none) => some entry
        | (entry, some left) =>
          readExtra steps (left.drop (length - (rest.length - left.length))) entry
      else if kind = 0x9901 then
        if length ≠ 7 then none
        else if rest.length < 7 then some entry
        else do
          let method ← readCipher (rest.take 7)
          readExtra steps (rest.drop 14) { entry with method, enciphered := true }
      else readExtra steps (rest.drop length) entry
    | _ => some entry

/-- Reads the entry at a position, and says where the next one begins. -/
def readEntry (file : ByteArray) (shift position : Nat) : Option (Entry × Nat) := do
  if (← field file position 4) ≠ 0x02014B50 then none
  else
    let flags ← field file (position + 8) 2
    let method ← field file (position + 10) 2
    let checksum ← field file (position + 16) 4
    let compressedSize ← field file (position + 20) 4
    let size ← field file (position + 24) 4
    let nameLength ← field file (position + 28) 2
    let extraLength ← field file (position + 30) 2
    let commentLength ← field file (position + 32) 2
    let headerStart ← field file (position + 42) 4
    let name ← slice file (position + 46) nameLength
    let extra ← slice file (position + 46 + nameLength) extraLength
    let _ ← slice file (position + 46 + nameLength + extraLength) commentLength
    let text :=
      if flags.testBit 11 then Text.Utf8.decodeLossy name else name.map codePageChar
    let entry ← readExtra (extraLength + 1) extra
      { name := String.ofList text, encrypted := flags.testBit 0, enciphered := false, method,
        checksum, compressedSize, size, headerStart }
    let headerStart := entry.headerStart + shift
    if (entry.method = 99 ∧ !entry.enciphered) ∨ UInt64.size ≤ headerStart then none
    else
      return ({ entry with headerStart },
        position + 46 + nameLength + extraLength + commentLength)

def readEntries (file : ByteArray) (shift : Nat) : Nat → Nat → Option (List Entry)
  | 0, _ => some []
  | count + 1, position => do
    let (entry, next) ← readEntry file shift position
    return entry :: (← readEntries file shift count next)

/-- The entries of the directory of an archive. Even if it is empty, it must begin where the
medium can be gone to. -/
def readDirectory (medium : Medium) (file : ByteArray) : Option (List Entry) := do
  let ending ← readEnding file
  if !ending.isTooSmall && ending.disk != ending.directoryDisk then none
  else
    let extent ← ending.extent file
    if medium.lastPosition < extent.start then none
    else readEntries file extent.shift extent.count extent.start

end TestCoverage.Archive

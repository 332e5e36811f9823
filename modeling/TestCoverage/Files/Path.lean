import TestCoverage.Files.Tree
import TestCoverage.Text.Cut
import TestCoverage.Text.Utf8

/-!
# Paths

A path is a byte string that leads from the working directory to a place: name by name, `..`
going to the parent of the place reached so far, a link going on with its target
(`FileTree.follow`). At most forty links are followed, and a path has fewer than 4096 bytes. There
is nothing outside the working directory.
-/

namespace TestCoverage

/-- Why a path leads nowhere. -/
inductive PathFault where
  /-- Nothing has this name. -/
  | notFound
  /-- The path goes on below a file. -/
  | notDirectory
  /-- The path leads to a directory where a file is asked for. -/
  | isDirectory
  /-- The path goes through too many links. -/
  | manyLinks
  /-- A name or the whole path is too long, or holds a zero byte. -/
  | badName
deriving DecidableEq, Repr

namespace FileTree

/-- Stands between the names in a path: the byte of `/`. -/
def separator : UInt8 := 0x2F

/-- The name of the place reached so far: the byte of `.`. -/
def here : Bytes := [0x2E]

/-- The name of its parent: the bytes of `..`. -/
def parent : Bytes := [0x2E, 0x2E]

def names (path : Bytes) : List Bytes := Text.split (· == separator) path

/-- The path does not begin at the working directory. -/
def isAbsolute (path : Bytes) : Bool := path.head? == some separator

def isGoodName (name : Bytes) : Bool := name.length ≤ 255 && !name.contains 0

/-- A path has fewer bytes than this. -/
def pathBound : Nat := 4096

/-- The path is too long or holds a zero byte. -/
def isBadPath (path : Bytes) : Bool := pathBound ≤ path.length || path.contains 0

/-- How many links a path may go through. -/
def linkAllowance : Nat := 40

/-- The place where some names lead from a directory, with how many of the allowed links are
left. Everything on the way must stand there, but not what the last name calls for. -/
def follow (tree : FileTree) (links : Nat) (place : Place) (path : List Bytes) :
    Except PathFault (Place × Nat) :=
  match path with
  | [] => .ok (place, links)
  | name :: rest =>
    if name = [] ∨ name = here then tree.follow links place rest
    else if name = parent then
      if place = [] then .error .notFound else tree.follow links place.dropLast rest
    else if !isGoodName name then .error .badName
    else
      match tree.find? (place ++ [name]) with
      | none => if rest = [] then .ok (place ++ [name], links) else .error .notFound
      | some (.directory _) => tree.follow links (place ++ [name]) rest
      | some (.file _) => if rest = [] then .ok (place ++ [name], links) else .error .notDirectory
      | some (.link target) =>
        match links with
        | 0 => .error .manyLinks
        | links + 1 =>
          if target = [] ∨ isAbsolute target then .error .notFound
          else tree.follow links place (names target ++ rest)
termination_by (links, path.length)

/-- The place where a path leads, with how many of the allowed links are left. -/
def locate (tree : FileTree) (path : Bytes) : Except PathFault (Place × Nat) :=
  if isBadPath path then .error .badName
  else if path = [] ∨ isAbsolute path then .error .notFound
  else tree.follow linkAllowance [] (names path)

/-- What a path leads to. -/
def resolve (tree : FileTree) (path : Bytes) : Except PathFault FileTree := do
  let (place, _) ← tree.locate path
  match tree.find? place with
  | some found => .ok found
  | none => .error .notFound

def read (tree : FileTree) (path : Bytes) : Except PathFault Bytes := do
  match ← tree.resolve path with
  | .file bytes => .ok bytes
  | _ => .error .isDirectory

/-- The text of the file that a path leads to, if it is UTF-8. -/
def readText (tree : FileTree) (path : Bytes) : Option String :=
  match tree.read path with
  | .ok bytes => (Text.Utf8.decode bytes).map String.ofList
  | .error _ => none

/-- The tree with these bytes as the file at a place, unless a directory stands there. -/
def putFile (tree : FileTree) (place : Place) (bytes : Bytes) : Except PathFault FileTree :=
  if ((tree.find? place).map isDirectory).getD false then .error .isDirectory
  else .ok (tree.put place (.file bytes))

/-- The tree with these bytes as the file that a path leads to. -/
def write (tree : FileTree) (path bytes : Bytes) : Except PathFault FileTree := do
  let (place, _) ← tree.locate path
  tree.putFile place bytes

/-! ## Making trees -/

/-- The tree with the directory where some names lead from a place, and every directory on the
way to it. -/
def makeDirectories (tree : FileTree) (place : Place) :
    List Bytes → Except PathFault (FileTree × Place)
  | [] => .ok (tree, place)
  | name :: rest => do
    let (next, _) ← tree.follow linkAllowance place [name]
    match tree.find? next with
    | some (.directory _) => tree.makeDirectories next rest
    | some _ => .error .notDirectory
    | none => (tree.put next empty).makeDirectories next rest

/-- The tree with a file, a link or an empty directory at the end of a path, and every directory
on the way to it. -/
def plant (tree : FileTree) (path : Bytes) (new : FileTree) : Except PathFault FileTree := do
  match new with
  | .directory _ =>
    let (tree, _) ← tree.makeDirectories [] (names path)
    return tree
  | new =>
    let (tree, place) ← tree.makeDirectories [] (names path).dropLast
    let name := (names path).getLastD []
    match new with
    | .file bytes =>
      let (place, _) ← tree.follow linkAllowance place [name]
      tree.putFile place bytes
    | new => return tree.put (place ++ [name]) new

end FileTree

end TestCoverage

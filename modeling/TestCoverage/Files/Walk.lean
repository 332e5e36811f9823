import TestCoverage.Files.Path

/-!
# Walks

A walk finds the files below a path, depth first, in ascending order of the names in each
directory. Links are followed, except to a directory that the walk is in. Everything is reached
by its whole path, so that the bounds on paths and links hold for it.
-/

namespace TestCoverage.FileTree

/-- What a walk comes upon. -/
inductive Walked where
  | file (path bytes : Bytes)
  /-- A file whose path is too long. -/
  | unreadableFile (path : Bytes)
  /-- A directory or link that cannot be read: its path is too long or goes through too many
  links, or the link leads nowhere, or back to a directory that the walk is in. -/
  | unreadable
deriving DecidableEq, Repr

/-- What stands at a place, in ascending order of the names. -/
def sortedEntries (tree : FileTree) (place : Place) : List (Bytes × FileTree) :=
  match tree.find? place with
  | some found => found.entries.mergeSort (fun a b => !decide (b.1 < a.1))
  | none => []

/-- The path of what stands in the directory of a path. -/
def childPath (path name : Bytes) : Bytes :=
  if path.getLast? = some separator then path ++ name else path ++ separator :: name

/-- The files below the directory at `place`. Its path is `path`, on which all but `links` of
the allowed links were followed. `ancestors` are the directories that the walk is in, this one
among them, and `depth` bounds how many more it may go into. -/
def walkBelow (tree : FileTree) : Nat → List Place → Nat → Bytes → Place → List Walked
  | 0, _, _, _, _ => []
  | depth + 1, ancestors, links, path, place =>
    (tree.sortedEntries place).flatMap fun (name, node) =>
      let path := childPath path name
      if isBadPath path then
        match node with
        | .file _ => [.unreadableFile path]
        | _ => [.unreadable]
      else
        match tree.follow links place [name] with
        | .error _ => [.unreadable]
        | .ok (target, links) =>
          match tree.find? target with
          | some (.file bytes) => [.file path bytes]
          | some (.directory _) =>
            if target ≠ place ++ [name] ∧ ancestors.contains target then [.unreadable]
            else tree.walkBelow depth (target :: ancestors) links path target
          | _ => [.unreadable]

/-- The files at and below a path. Every directory that a walk goes into makes the path longer,
so the bound of paths is one of the depth too. -/
def walk (tree : FileTree) (root : Bytes) : List Walked :=
  match tree.locate root with
  | .error _ => [.unreadable]
  | .ok (place, links) =>
    match tree.find? place with
    | some (.file bytes) => [.file root bytes]
    | some (.directory _) => tree.walkBelow pathBound [place] links root place
    | _ => [.unreadable]

end TestCoverage.FileTree

import TestCoverage.Bytes

/-!
# File trees

A file tree is a file, a symbolic link, or a directory, whose entries are file trees with names.
Names and the targets of links are any bytes, not always UTF-8. A place is a position in a tree:
the list of names on the way down. Places never go through a link. The tree of the working
directory is a directory.
-/

namespace TestCoverage

/-- Files, symbolic links and directories. -/
inductive FileTree where
  | file (bytes : Bytes)
  | link (target : Bytes)
  | directory (entries : List (Bytes × FileTree))
deriving Inhabited

/-- The names on the way down. -/
abbrev Place := List Bytes

namespace FileTree

def empty : FileTree := .directory []

def entries : FileTree → List (Bytes × FileTree)
  | .directory entries => entries
  | _ => []

def isDirectory : FileTree → Bool
  | .directory _ => true
  | _ => false

def find? : FileTree → Place → Option FileTree
  | tree, [] => some tree
  | tree, name :: rest =>
    match tree.entries.lookup name with
    | some below => below.find? rest
    | none => none

/-- The tree with something new at a place, whatever stood there before. What is on the way to
the place becomes a directory. -/
def put : FileTree → Place → FileTree → FileTree
  | _, [], new => new
  | tree, name :: rest, new =>
    let below := (tree.entries.lookup name).getD empty
    .directory (tree.entries.filter (·.1 != name) ++ [(name, below.put rest new)])

end FileTree

end TestCoverage

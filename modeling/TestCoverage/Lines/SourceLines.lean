import TestCoverage.Lines.LineSet

/-!
# Covered lines by source file

The covered lines of each source file, by the path of the file below the source root. A file
without covered lines is not recorded.
-/

namespace TestCoverage

/-- Covered lines by source path, in ascending order of the paths. -/
structure SourceLines where
  byPath : OrderedMap String LineSet

namespace SourceLines

def empty : SourceLines := ⟨.empty⟩

instance : Inhabited SourceLines := ⟨empty⟩

/-- The files with their lines, in ascending order of the paths. -/
def files (coverage : SourceLines) : List (String × LineSet) := coverage.byPath.entries

def isEmpty (coverage : SourceLines) : Bool := coverage.byPath.isEmpty

def linesOf (coverage : SourceLines) (path : String) : LineSet :=
  (coverage.byPath.find? path).getD .empty

/-- The coverage with some more lines of a file. -/
def add (coverage : SourceLines) (path : String) (lines : List Line) : SourceLines :=
  if lines.isEmpty then coverage
  else ⟨coverage.byPath.set path ((coverage.linesOf path).insertAll lines)⟩

/-- The lines of both together. -/
def merge (coverage other : SourceLines) : SourceLines :=
  other.files.foldl (fun coverage (path, lines) => coverage.add path lines.toList) coverage

end SourceLines

end TestCoverage

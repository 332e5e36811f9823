import TestCoverage.OrderedMap

/-!
# Sets of source lines

Lines are numbered from one, with 32 bits. A set of lines is kept in ascending order
(`LineSet.toList`) and written as its maximal runs of consecutive lines, separated by commas
(`LineSet.render`): a run is its first and last line with a `-` between them, or just the
line if it is one.
-/

namespace TestCoverage

/-- The number of a source line. -/
structure Line where
  number : UInt32
  positive : number ≠ 0
deriving DecidableEq, Repr

namespace Line

/-- The line with this number, unless it is zero. -/
def ofNumber? (number : UInt32) : Option Line :=
  if h : number = 0 then none else some ⟨number, h⟩

def zeroMessage : String := "source lines must be 1-indexed"

/-- Lines are ordered by number. -/
instance : LT Line := ⟨fun a b => a.number < b.number⟩

instance : DecidableLT Line := fun a b => inferInstanceAs (Decidable (a.number < b.number))

instance : KeyOrder Line where
  irrefl a := UInt32.lt_irrefl a.number
  trans hab hbc := UInt32.lt_trans hab hbc
  eq_of_not_lt {a b} hab hba := by
    have h : a.number = b.number :=
      UInt32.le_antisymm (UInt32.not_lt.mp hba) (UInt32.not_lt.mp hab)
    cases a
    cases b
    cases h
    rfl

end Line

/-- A finite set of lines. -/
structure LineSet where
  byLine : OrderedMap Line Unit

namespace LineSet

def empty : LineSet := ⟨.empty⟩

instance : Inhabited LineSet := ⟨empty⟩

def toList (lines : LineSet) : List Line := lines.byLine.keys

def contains (lines : LineSet) (line : Line) : Bool := (lines.byLine.find? line).isSome

def insert (lines : LineSet) (line : Line) : LineSet := ⟨lines.byLine.set line ()⟩

def insertAll (lines : LineSet) (more : List Line) : LineSet := more.foldl insert lines

def ofList (lines : List Line) : LineSet := empty.insertAll lines

/-! ## Ranges -/

/-- A run of consecutive lines, by the numbers of its first and its last line. -/
structure Range where
  first : Nat
  last : Nat
deriving DecidableEq, Repr

/-- Cuts ascending numbers into runs of consecutive ones, from the last number to the
first: a number joins the run that begins right after it. -/
def runs : List Nat → List Range
  | [] => []
  | number :: rest =>
    match runs rest with
    | [] => [⟨number, number⟩]
    | range :: others =>
      if range.first = number + 1 then ⟨number, range.last⟩ :: others
      else ⟨number, number⟩ :: range :: others

/-- The maximal runs of consecutive lines, in ascending order. -/
def ranges (lines : LineSet) : List Range := runs (lines.toList.map (·.number.toNat))

def Range.render (range : Range) : String :=
  if range.first = range.last then toString range.first
  else toString range.first ++ "-" ++ toString range.last

def render (lines : LineSet) : String :=
  String.intercalate "," (lines.ranges.map Range.render)

end LineSet

end TestCoverage

import TestCoverage.Location
import TestCoverage.Location.Pattern

/-!
# Which locations are wanted

Rules are a list of patterns to include and a list of patterns to exclude. A location is
wanted when some include pattern matches it, or there is none, and no exclude pattern does.
Rules are written one to a line: `# ` begins a remark, `! ` an exclude pattern, and any
other line that is not blank is an include pattern.
-/

namespace TestCoverage

/-- Include and exclude patterns. -/
structure Rules where
  includes : List Pattern
  excludes : List Pattern
deriving DecidableEq, Repr

/-- One line of written rules. -/
inductive RuleLine where
  | blank
  | remark
  | including (pattern : Pattern)
  | excluding (pattern : Pattern)
deriving DecidableEq, Repr

def RuleLine.read (line : List Char) : RuleLine :=
  match Text.trim line with
  | [] => .blank
  | '#' :: ' ' :: _ => .remark
  | '!' :: ' ' :: pattern => .excluding (Pattern.ofText pattern)
  | pattern => .including (Pattern.ofText pattern)

namespace Rules

def all : Rules := ⟨[], []⟩

def ofTexts (includes excludes : List String) : Rules :=
  ⟨includes.map fun text => Pattern.ofText text.toList,
    excludes.map fun text => Pattern.ofText text.toList⟩

def addLine (rules : Rules) : RuleLine → Rules
  | .blank => rules
  | .remark => rules
  | .including pattern => { rules with includes := rules.includes ++ [pattern] }
  | .excluding pattern => { rules with excludes := rules.excludes ++ [pattern] }

def read (text : String) : Rules :=
  (Text.lines text.toList).foldl (fun rules line => rules.addLine (RuleLine.read line)) all

def extend (rules others : Rules) : Rules :=
  ⟨rules.includes ++ others.includes, rules.excludes ++ others.excludes⟩

def wants (rules : Rules) (location : String) : Bool :=
  let text := location.toList
  (rules.includes.isEmpty || rules.includes.any (·.accepts text)) &&
    !rules.excludes.any (·.accepts text)

end Rules

end TestCoverage

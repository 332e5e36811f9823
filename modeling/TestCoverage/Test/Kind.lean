import TestCoverage.Text.Cut

/-!
# Tests and hooks

What ran is told from its identifier: `<class>#beforeClass` and `<class>#afterClass` are the
hooks of a test class, anything else is a test, of the class that stands before the last `#`
or `/`.
-/

namespace TestCoverage

/-- What ran: a test or a hook, with its test class. -/
inductive TestKind where
  | test (owner : String)
  | beforeClass (owner : String)
  | afterClass (owner : String)
deriving DecidableEq, Repr

namespace TestKind

/-- Ends the identifier of a hook that runs before the tests of a class. -/
def beforeEnding : String := "#beforeClass"

/-- Ends the identifier of a hook that runs after the tests of a class. -/
def afterEnding : String := "#afterClass"

/-- What stands before an ending, if the text ends so. -/
def beforeEnding? (ending text : List Char) : Option (List Char) :=
  if ending.isSuffixOf text then some (text.take (text.length - ending.length)) else none

/-- What an identifier stands for. -/
def ofId (id : String) : TestKind :=
  match beforeEnding? beforeEnding.toList id.toList with
  | some owner => .beforeClass (String.ofList owner)
  | none =>
    match beforeEnding? afterEnding.toList id.toList with
    | some owner => .afterClass (String.ofList owner)
    | none =>
      match Text.cutLast? (fun c => c == '#' || c == '/') id.toList with
      | some (owner, _) => .test (String.ofList owner)
      | none => .test ""

def owner : TestKind → String
  | .test owner => owner
  | .beforeClass owner => owner
  | .afterClass owner => owner

def isHook : TestKind → Bool
  | .test _ => false
  | .beforeClass _ => true
  | .afterClass _ => true

end TestKind

end TestCoverage

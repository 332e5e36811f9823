import TestCoverage.OrderedMap
import TestCoverage.Test.Execution

/-!
# Which test an execution belongs to

Executions in the order of their arrival are gathered into logical tests, one for each
identifier. A hook before the tests of a class also counts for the first test of the class
that follows; a hook after the tests of a class also lends its records to the last test of
the class that came before. A hook without such a test stands for itself and is
*unresolved*.

* `Attribution.push` takes one execution, `Attribution.finish` settles the hooks that still
  wait for a test.
* `MergedTests.ofExecutions` is the whole: it is refused only if a clock cannot show the
  duration of some test.
-/

namespace TestCoverage

/-- Everything that counts for one test. -/
structure LogicalTest where
  id : String
  result : TestResult
  duration : Duration
  store : ProbeStore

/-- A hook that stands for itself. -/
structure UnresolvedHook where
  id : String
  kind : TestKind
deriving DecidableEq, Repr

/-- What is noted while executions are gathered. -/
inductive AttributionNotice where
  /-- A record does not merge with what its test has. -/
  | dropped (test : String) (fault : MergeFault)
  | noPrecedingTest (hook owner : String)
  | noFollowingTest (hook owner : String)
deriving DecidableEq, Repr

def AttributionNotice.message : AttributionNotice → String
  | .dropped test fault =>
    "dropping execution data for test " ++ test ++ ": " ++ fault.message
  | .noPrecedingTest hook owner =>
    "after-class hook " ++ hook ++ " has no preceding test in class " ++ owner ++
      "; reporting it on its own"
  | .noFollowingTest hook owner =>
    "before-class hook " ++ hook ++ " has no following test in class " ++ owner ++
      "; reporting it on its own"

/-- A hook that waits for the first test of its class. -/
structure PendingHook where
  id : String
  result : TestResult
  store : ProbeStore

/-- What is known of one test class. -/
structure ClassProgress where
  /-- The hooks that wait for a test. -/
  pending : List PendingHook
  /-- The position of the test that came last. -/
  lastTest : Option Nat

def ClassProgress.start : ClassProgress := ⟨[], none⟩

namespace LogicalTest

def ofId (id : String) : LogicalTest := ⟨id, .passed, .zero, .empty⟩

/-- The test with the records of a store, and the notices of the records left out. -/
def absorbStore (test : LogicalTest) (store : ProbeStore) :
    LogicalTest × List AttributionNotice :=
  let (merged, faults) := test.store.merge store
  ({ test with store := merged }, faults.map (.dropped test.id))

/-- The test with a run that counts for it: records, then result, then duration. -/
def absorbRun (test : LogicalTest) (result : TestResult) (duration : Duration)
    (store : ProbeStore) : LogicalTest × List AttributionNotice :=
  let (test, notices) := test.absorbStore store
  ({ test with
      result := test.result.absorb result
      duration := test.duration.add duration }, notices)

/-- The test with a hook that ran before it. Its duration stays the same. -/
def absorbHook (test : LogicalTest) (hook : PendingHook) :
    LogicalTest × List AttributionNotice :=
  let (test, notices) := test.absorbStore hook.store
  ({ test with result := test.result.absorb hook.result }, notices)

/-- The test with several hooks that ran before it. -/
def absorbHooks (test : LogicalTest) (hooks : List PendingHook) :
    LogicalTest × List AttributionNotice :=
  hooks.foldl (fun (test, notices) hook =>
    let (test, more) := test.absorbHook hook
    (test, notices ++ more)) (test, [])

end LogicalTest

/-- What was gathered so far. -/
structure Attribution where
  /-- The tests, in the order in which they first appeared. -/
  tests : List LogicalTest
  /-- The position of each test, by its identifier. -/
  positions : OrderedMap String Nat
  /-- What is known of each test class. -/
  classes : OrderedMap String ClassProgress
  unresolved : List UnresolvedHook
  notices : List AttributionNotice

/-- The logical tests, and the hooks that stand for themselves. -/
structure MergedTests where
  tests : List LogicalTest
  unresolved : List UnresolvedHook
  notices : List AttributionNotice

namespace Attribution

def empty : Attribution := ⟨[], .empty, .empty, [], []⟩

def progress (state : Attribution) (owner : String) : ClassProgress :=
  (state.classes.find? owner).getD .start

/-- Applies a change to the test at a position, and notes what it notes. -/
def change (state : Attribution) (position : Nat)
    (f : LogicalTest → LogicalTest × List AttributionNotice) : Attribution :=
  match state.tests[position]? with
  | none => state
  | some test =>
    let (test, notices) := f test
    { state with
      tests := state.tests.set position test
      notices := state.notices ++ notices }

/-- The position of the test with an identifier, which is begun if it is new. -/
def locate (state : Attribution) (id : String) : Attribution × Nat :=
  match state.positions.find? id with
  | some position => (state, position)
  | none =>
    let position := state.tests.length
    ({ state with
        tests := state.tests ++ [.ofId id]
        positions := state.positions.set id position }, position)

/-- Adds a run to the test with its identifier, and says where that test is. -/
def upsert (state : Attribution) (id : String) (result : TestResult) (duration : Duration)
    (store : ProbeStore) : Attribution × Nat :=
  let (state, position) := state.locate id
  (state.change position (·.absorbRun result duration store), position)

/-- Takes a run of a test: the hooks that waited for it count for it. -/
def pushTest (state : Attribution) (execution : Execution) (owner : String) : Attribution :=
  let (state, position) :=
    state.upsert execution.id execution.result execution.duration execution.dump.store
  let waiting := (state.progress owner).pending
  { state with classes := state.classes.set owner ⟨[], some position⟩ }.change position
    (·.absorbHooks waiting)

/-- Takes a run of a hook before the tests of a class, which waits for a test. -/
def pushBefore (state : Attribution) (execution : Execution) (owner : String) : Attribution :=
  let progress := state.progress owner
  let hook := ⟨execution.id, execution.result, execution.dump.store⟩
  { state with
    classes := state.classes.set owner { progress with pending := progress.pending ++ [hook] } }

/-- Takes a run of a hook after the tests of a class. The last test gets its records, and the
hook is also a test of its own, without a duration. -/
def pushAfter (state : Attribution) (execution : Execution) (owner : String) : Attribution :=
  let state :=
    match (state.progress owner).lastTest with
    | some position => state.change position (·.absorbStore execution.dump.store)
    | none =>
      { state with
        unresolved := state.unresolved ++ [UnresolvedHook.mk execution.id (.afterClass owner)]
        notices := state.notices ++ [AttributionNotice.noPrecedingTest execution.id owner] }
  (state.upsert execution.id execution.result .zero execution.dump.store).1

/-- Takes one execution. One without an identifier is passed over. -/
def push (state : Attribution) (execution : Execution) : Attribution :=
  if execution.id = "" then state
  else
    match execution.kind with
    | .test owner => state.pushTest execution owner
    | .beforeClass owner => state.pushBefore execution owner
    | .afterClass owner => state.pushAfter execution owner

/-- Lets a hook of a class stand for itself. -/
def standAlone (owner : String) (state : Attribution) (hook : PendingHook) : Attribution :=
  let state :=
    { state with
      unresolved := state.unresolved ++ [UnresolvedHook.mk hook.id (.beforeClass owner)]
      notices := state.notices ++ [AttributionNotice.noFollowingTest hook.id owner] }
  (state.upsert hook.id hook.result .zero hook.store).1

/-- Lets the hooks that still wait stand for themselves, by ascending names of the classes. -/
def settle (state : Attribution) : Attribution :=
  state.classes.entries.foldl (fun state (owner, progress) =>
    progress.pending.foldl (standAlone owner) state) { state with classes := .empty }

def finish (state : Attribution) : MergedTests :=
  let state := state.settle
  ⟨state.tests, state.unresolved, state.notices⟩

end Attribution

namespace MergedTests

/-- The logical tests of some executions in the order of their arrival. -/
def gather (executions : List Execution) : MergedTests :=
  (executions.foldl Attribution.push .empty).finish

/-- A clock can show the duration of every test. -/
def fits (merged : MergedTests) : Bool := merged.tests.all (·.duration.fits)

/-- The logical tests of some executions, unless the duration of one of them is longer than a
clock can show. -/
def ofExecutions (executions : List Execution) : Option MergedTests :=
  let merged := gather executions
  if merged.fits then some merged else none

end MergedTests

end TestCoverage

import Mathlib
import TestCoverage.Proofs.Attribution.Gathering
import TestCoverage.Proofs.Probe.Store

/-!
# What was gathered only grows

What is gathered from executions is a list of tests, and beside it positions in this list, by
identifier and by test class. An execution may append a test, change one and move the last test of a
class, and the three have to stay in step.

* `Attribution.grows_push`: one more execution takes nothing away, whatever was gathered before. Tests
  keep their positions and identifiers, records their names, numbers of probes and hits; outcomes get
  no less severe and durations no shorter, messages are continued, and hooks that stand for themselves
  are appended. `Attribution.grows_foldl` makes runs of such steps.
* `Attribution.Follows.inStep`: the positions by identifier are exactly those of the tests, and the
  last test of a class is that of the run that came last. So there is a test wherever one is looked
  up.
* `Attribution.inStep_and_grows`: both for everything that can be gathered.
-/

namespace TestCoverage

/-! ## Records and results -/

namespace ProbeStore

/-- The store has the records of the other one: of the same class versions, under the same names,
with as many probes and all their hits. -/
def Covers (store other : ProbeStore) : Prop :=
  ∀ id hits, other.find? id = some hits → ∃ more, store.find? id = some more ∧ more.Covers hits

theorem Covers.refl (store : ProbeStore) : store.Covers store := fun _ hits h =>
  ⟨hits, h, .refl hits⟩

theorem Covers.trans {first second third : ProbeStore} (h : first.Covers second)
    (h' : second.Covers third) : first.Covers third := by
  intro id hits hhits
  obtain ⟨more, hmore, hcovers⟩ := h' id hits hhits
  obtain ⟨most, hmost, hcovers'⟩ := h id more hmore
  exact ⟨most, hmost, hcovers'.trans hcovers⟩

/-- A merge keeps the records that were there, even where it refuses others. -/
theorem merge_covers (store other : ProbeStore) : (store.merge other).1.Covers store := by
  intro id hits hhits
  obtain ⟨merged, hmerged, hcovers⟩ := Hits.foldl_join_some [other.find? id] hits
  rw [find?_merge, hhits]
  exact ⟨merged, hmerged, hcovers⟩

end ProbeStore

namespace TestResult

/-- The next result is no less severe, and its message begins with the one before. -/
structure Grows (result next : TestResult) : Prop where
  outcome : result.outcome.severity ≤ next.outcome.severity
  message : ∀ text, result.message = some text → ∃ more, next.message = some (text ++ more)

theorem Grows.refl (result : TestResult) : result.Grows result where
  outcome := le_rfl
  message text h := ⟨"", by rw [h, String.append_empty]⟩

theorem Grows.trans {first second third : TestResult} (h : first.Grows second)
    (h' : second.Grows third) : first.Grows third where
  outcome := h.outcome.trans h'.outcome
  message text htext := by
    obtain ⟨more, hmore⟩ := h.message text htext
    obtain ⟨most, hmost⟩ := h'.message _ hmore
    exact ⟨more ++ most, by rw [hmost, String.append_assoc]⟩

theorem grows_absorb (result other : TestResult) : result.Grows (result.absorb other) where
  outcome := by
    rw [absorb, Outcome.severity_worse]
    exact le_max_left _ _
  message text htext := by
    rw [absorb, htext]
    cases other.message with
    | none => exact ⟨"", by rw [joinMessages, String.append_empty]⟩
    | some second => exact ⟨"\n" ++ second, by rw [joinMessages, String.append_assoc]⟩

end TestResult

/-! ## Tests -/

namespace LogicalTest

/-- The next test is the same test, with at least the records, the severity and the duration, and
with a message that continues the one before. -/
structure Grows (test next : LogicalTest) : Prop where
  id_eq : next.id = test.id
  result : test.result.Grows next.result
  duration : test.duration.nanos ≤ next.duration.nanos
  store : next.store.Covers test.store

theorem Grows.refl (test : LogicalTest) : test.Grows test := ⟨rfl, .refl _, le_rfl, .refl _⟩

theorem Grows.trans {first second third : LogicalTest} (h : first.Grows second)
    (h' : second.Grows third) : first.Grows third where
  id_eq := h'.id_eq.trans h.id_eq
  result := h.result.trans h'.result
  duration := h.duration.trans h'.duration
  store := h'.store.trans h.store

theorem grows_absorbStore (test : LogicalTest) (store : ProbeStore) :
    test.Grows (test.absorbStore store).1 :=
  ⟨rfl, .refl _, le_rfl, ProbeStore.merge_covers _ _⟩

theorem grows_absorbRun (test : LogicalTest) (result : TestResult) (duration : Duration)
    (store : ProbeStore) : test.Grows (test.absorbRun result duration store).1 :=
  ⟨rfl, TestResult.grows_absorb _ _, Nat.le_add_right _ _, ProbeStore.merge_covers _ _⟩

theorem grows_absorbHook (test : LogicalTest) (hook : PendingHook) :
    test.Grows (test.absorbHook hook).1 :=
  ⟨rfl, TestResult.grows_absorb _ _, le_rfl, ProbeStore.merge_covers _ _⟩

theorem grows_absorbHooks (test : LogicalTest) (hooks : List PendingHook) :
    test.Grows (test.absorbHooks hooks).1 := by
  unfold absorbHooks
  generalize ([] : List AttributionNotice) = notices
  induction hooks generalizing test notices with
  | nil => exact .refl test
  | cons hook rest ih => exact (test.grows_absorbHook hook).trans (ih _ _)

end LogicalTest

/-! ## One execution, and all that come later -/

namespace Attribution

/-- Whatever test was at a position is still there and has grown, and the hooks that stood for
themselves come first among those that do. -/
structure Grows (state next : Attribution) : Prop where
  tests : ∀ (position : Nat) (test : LogicalTest), state.tests[position]? = some test →
    ∃ more, next.tests[position]? = some more ∧ test.Grows more
  unresolved : state.unresolved <+: next.unresolved

theorem Grows.of_tests_eq {state next : Attribution} (htests : next.tests = state.tests)
    (hunresolved : state.unresolved <+: next.unresolved) : state.Grows next where
  tests position test htest := ⟨test, by rw [htests, htest], .refl test⟩
  unresolved := hunresolved

theorem Grows.refl (state : Attribution) : state.Grows state := .of_tests_eq rfl List.prefix_rfl

theorem Grows.trans {first second third : Attribution} (h : first.Grows second)
    (h' : second.Grows third) : first.Grows third where
  tests position test htest := by
    obtain ⟨more, hmore, hgrows⟩ := h.tests position test htest
    obtain ⟨most, hmost, hgrows'⟩ := h'.tests position more hmore
    exact ⟨most, hmost, hgrows.trans hgrows'⟩
  unresolved := h.unresolved.trans h'.unresolved

theorem grows_change (state : Attribution) (position : Nat)
    {f : LogicalTest → LogicalTest × List AttributionNotice}
    (hf : ∀ test : LogicalTest, test.Grows (f test).1) : state.Grows (state.change position f) := by
  unfold change
  split
  · exact .refl state
  · next changed hchanged =>
    refine ⟨fun other test htest => ?_, List.prefix_rfl⟩
    dsimp only
    rw [List.getElem?_set]
    split
    · next heq =>
      subst heq
      obtain rfl := Option.some.inj (hchanged.symm.trans htest)
      have hlt := (List.getElem?_eq_some_iff.mp htest).1
      exact ⟨_, if_pos hlt, hf changed⟩
    · exact ⟨test, htest, .refl test⟩

theorem grows_locate (state : Attribution) (id : String) : state.Grows (state.locate id).1 := by
  unfold locate
  split
  · exact .refl state
  · refine ⟨fun position test htest => ?_, List.prefix_rfl⟩
    have hlt := (List.getElem?_eq_some_iff.mp htest).1
    exact ⟨test, by rw [List.getElem?_append_left hlt, htest], .refl test⟩

theorem grows_upsert (state : Attribution) (id : String) (result : TestResult)
    (duration : Duration) (store : ProbeStore) :
    state.Grows (state.upsert id result duration store).1 :=
  (state.grows_locate id).trans
    (grows_change _ _ fun test => test.grows_absorbRun result duration store)

variable (state : Attribution) (run : Execution) (owner : String)

theorem grows_pushTest : state.Grows (state.pushTest run owner) := by
  unfold pushTest
  dsimp only
  refine Grows.trans ?_ (grows_change _ _ fun test => test.grows_absorbHooks _)
  -- the class notes its last test before the hooks that waited are absorbed
  refine (state.grows_upsert run.id run.result run.duration run.dump.store).trans ?_
  exact .of_tests_eq rfl List.prefix_rfl

theorem grows_pushBefore : state.Grows (state.pushBefore run owner) :=
  .of_tests_eq rfl List.prefix_rfl

theorem grows_pushAfter : state.Grows (state.pushAfter run owner) := by
  unfold pushAfter
  refine Grows.trans ?_ (grows_upsert _ _ _ _ _)
  split
  · exact grows_change _ _ fun test => test.grows_absorbStore _
  · exact .of_tests_eq rfl (List.prefix_append _ _)

/-- The step: one execution more. -/
theorem grows_push : state.Grows (state.push run) := by
  unfold push
  split
  · exact .refl state
  · cases run.kind with
    | test owner => exact grows_pushTest state run owner
    | beforeClass owner => exact grows_pushBefore state run owner
    | afterClass owner => exact grows_pushAfter state run owner

theorem grows_standAlone (hook : PendingHook) : state.Grows (standAlone owner state hook) := by
  unfold standAlone
  refine Grows.trans ?_ (grows_upsert _ _ _ _ _)
  exact .of_tests_eq rfl (List.prefix_append _ _)

/-- The run: what every step only adds to, all steps only add to. -/
theorem grows_foldl {α : Type} {step : Attribution → α → Attribution}
    (h : ∀ (state : Attribution) (a : α), state.Grows (step state a)) (as : List α) :
    state.Grows (as.foldl step state) := by
  induction as generalizing state with
  | nil => exact .refl state
  | cons a rest ih => exact (h state a).trans (ih (step state a))

theorem grows_settle : state.Grows state.settle := by
  unfold settle
  refine Grows.trans ?_ (grows_foldl _ ?_ _)
  · exact .of_tests_eq rfl List.prefix_rfl
  · rintro state ⟨owner, progress⟩
    exact grows_foldl state (fun state hook => grows_standAlone state owner hook) progress.pending

end Attribution

/-! ## Positions -/

namespace Arrivals

/-- The run of a test of the class that came last. Executions without an identifier are passed
over. -/
def lastRun? (executions : List Execution) (owner : String) : Option Execution :=
  (executions.filter fun run => run.id ≠ "" ∧ run.kind = .test owner).getLast?

theorem lastRun?_snoc (executions : List Execution) (run : Execution) (owner : String) :
    lastRun? (executions ++ [run]) owner =
      if run.id ≠ "" ∧ run.kind = .test owner then some run else lastRun? executions owner := by
  unfold lastRun?
  rw [List.filter_append, List.filter_cons, List.filter_nil]
  simp only [decide_eq_true_eq]
  split
  · rw [List.getLast?_concat]
  · rw [List.append_nil]

/-- The test of the run that came last is the last test of the class. -/
theorem lastTest?_named (executions : List Execution) (owner : String) :
    lastTest? (named executions) owner = (lastRun? executions owner).map (·.id) := by
  induction executions using List.reverseRecOn with
  | nil => rfl
  | append_singleton executions run ih =>
    rw [named_snoc, lastRun?_snoc]
    by_cases hid : run.id = ""
    · simpa [hid] using ih
    · by_cases hkind : run.kind = .test owner
      · simp [hid, hkind, lastTest?_snoc]
      · simpa [hid, hkind, lastTest?_snoc] using ih

end Arrivals

namespace Attribution

/-- What is kept beside the tests is in step with them and with what arrived. -/
structure InStep (state : Attribution) (executions : List Execution) : Prop where
  /-- The identifiers that have a position are those of the tests, each at its own. -/
  positions : ∀ id position, state.positions.find? id = some position ↔
    ∃ h : position < state.tests.length, state.tests[position].id = id
  /-- The last test of a class is the test of the run of the class that came last. -/
  lastTest : ∀ owner position, (state.progress owner).lastTest = some position ↔
    ∃ h : position < state.tests.length, ∃ run,
      Arrivals.lastRun? executions owner = some run ∧ state.tests[position].id = run.id
  /-- A class has a last test as soon as a test of it ran. -/
  isSome_lastTest : ∀ owner,
    (state.progress owner).lastTest.isSome = (Arrivals.lastRun? executions owner).isSome
  /-- Whatever identifier comes next, there is a test at the position that it is given. -/
  located : ∀ id, (state.locate id).2 < (state.locate id).1.tests.length

variable {state : Attribution} {ids : List String} {credits : List Credit}

theorem Shows.ids_eq (h : state.Shows ids credits) : ids = state.tests.map (·.id) := by
  rw [h.tests, List.map_map]
  simp [Function.comp_def]

/-- An identifier is first, and only, at the position of its test. -/
theorem Shows.idxOf?_eq_some_iff (h : state.Shows ids credits) {id : String} {position : Nat} :
    ids.idxOf? id = some position ↔
      ∃ h : position < state.tests.length, state.tests[position].id = id := by
  obtain rfl := h.ids_eq
  rw [List.idxOf?_eq_some_iff]
  constructor
  · rintro ⟨hlt, hat, -⟩
    exact ⟨by simpa using hlt, by simpa using hat⟩
  · rintro ⟨hlt, rfl⟩
    have hlt' : position < (state.tests.map (·.id)).length := by rwa [List.length_map]
    have hat : (state.tests.map (·.id))[position] = state.tests[position].id := List.getElem_map ..
    refine ⟨hlt', hat, fun other hother hsame => ?_⟩
    have heq := (List.getElem_inj h.nodup).mp (hsame.trans hat.symm)
    omega

theorem Follows.inStep {executions : List Execution}
    (h : state.Follows (Arrivals.named executions)) : state.InStep executions where
  positions id position := by rw [h.tests.positions, h.tests.idxOf?_eq_some_iff]
  lastTest owner position := by
    rw [h.lastTest, Arrivals.lastTest?_named, Option.bind_map, Option.bind_eq_some_iff]
    simp only [Function.comp_apply, h.tests.idxOf?_eq_some_iff]
    constructor
    · rintro ⟨run, hrun, hlt, hid⟩
      exact ⟨hlt, run, hrun, hid⟩
    · rintro ⟨hlt, run, hrun, hid⟩
      exact ⟨run, hrun, hlt, hid⟩
  isSome_lastTest owner := by
    have hlast := Arrivals.lastTest?_named executions owner
    rw [h.lastTest]
    cases hrun : Arrivals.lastRun? executions owner with
    | none => rw [hlast, hrun]; rfl
    | some run =>
      rw [hrun] at hlast
      rw [hlast]
      exact List.isSome_idxOf?.mpr (Arrivals.lastTest?_mem hlast)
  located id := by
    obtain ⟨hshows, hposition⟩ := h.tests.locate id
    exact (hshows.idxOf?_eq_some_iff.mp hposition).1

/-- After any executions the positions and the last tests are in step with the tests and with what
arrived. Whatever arrives later, and what is settled at the end, takes nothing away. -/
theorem inStep_and_grows (executions : List Execution) :
    let state := executions.foldl push .empty
    state.InStep executions ∧
      (∀ later : List Execution, state.Grows (later.foldl push state)) ∧
      state.Grows state.settle := by
  intro state
  exact ⟨(follows_push_all executions).inStep, state.grows_foldl grows_push, state.grows_settle⟩

end Attribution

end TestCoverage

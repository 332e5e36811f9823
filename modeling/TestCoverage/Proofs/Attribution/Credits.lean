import Mathlib
import TestCoverage.Test.Attribution

/-!
# Logical tests as sums of credits

A credit says that an execution counts for the logical test of some identifier, and what it
lends to that test. A logical test is the sum of its credits, in their order
(`LogicalTest.ofCredits`).

`Attribution.Shows` relates what was gathered to the credits so far: the tests are the sums
of the credits, in a fixed order of identifiers, and the positions are those of the
identifiers. `Shows.locate`, `Shows.change` and `Shows.upsert` say what the three operations
on tests do to the credits; no later proof looks at positions again.
-/

namespace TestCoverage

/-- What an execution lends to a logical test. -/
inductive Share where
  /-- Records, result and duration: a run of a test. -/
  | whole
  /-- Records and result, but no time: a hook. -/
  | untimed
  /-- Records only: a hook after the tests of a class, to the last of them. -/
  | records
deriving DecidableEq, Repr

/-- An execution that counts for a logical test. -/
structure Credit where
  test : String
  run : Execution
  share : Share

namespace LogicalTest

def credit (test : LogicalTest) (c : Credit) : LogicalTest where
  id := test.id
  result := match c.share with
    | .records => test.result
    | _ => test.result.absorb c.run.result
  duration := match c.share with
    | .whole => test.duration.add c.run.duration
    | _ => test.duration
  store := (test.store.merge c.run.dump.store).1

/-- The sum of the credits of an identifier. -/
def ofCredits (credits : List Credit) (id : String) : LogicalTest :=
  (credits.filter (·.test = id)).foldl credit (ofId id)

/-! ## One credit more -/

theorem id_foldl_credit (credits : List Credit) (test : LogicalTest) :
    (credits.foldl credit test).id = test.id := by
  induction credits generalizing test with
  | nil => rfl
  | cons c rest ih => exact ih (test.credit c)

@[simp] theorem id_ofCredits (credits : List Credit) (id : String) :
    (ofCredits credits id).id = id := id_foldl_credit _ _

theorem ofCredits_append (credits more : List Credit) (id : String) :
    ofCredits (credits ++ more) id =
      (more.filter (·.test = id)).foldl credit (ofCredits credits id) := by
  simp [ofCredits, List.foldl_append]

theorem ofCredits_append_of_ne {credits more : List Credit} {id : String}
    (h : ∀ c ∈ more, c.test ≠ id) : ofCredits (credits ++ more) id = ofCredits credits id := by
  have hnone : more.filter (·.test = id) = [] := by simpa using h
  rw [ofCredits_append, hnone, List.foldl_nil]

theorem ofCredits_append_of_eq {credits more : List Credit} {id : String}
    (h : ∀ c ∈ more, c.test = id) :
    ofCredits (credits ++ more) id = more.foldl credit (ofCredits credits id) := by
  have hall : more.filter (·.test = id) = more := by simpa using h
  rw [ofCredits_append, hall]

theorem ofCredits_of_not_mem {credits : List Credit} {id : String}
    (h : ∀ c ∈ credits, c.test ≠ id) : ofCredits credits id = ofId id := by
  have hnone : credits.filter (·.test = id) = [] := by simpa using h
  rw [ofCredits, hnone, List.foldl_nil]

/-! ## What the operations on tests lend -/

theorem absorbRun_whole (test : LogicalTest) (run : Execution) (id : String) :
    (test.absorbRun run.result run.duration run.dump.store).1 =
      test.credit ⟨id, run, .whole⟩ := rfl

theorem absorbRun_untimed (test : LogicalTest) (run : Execution) (id : String) :
    (test.absorbRun run.result .zero run.dump.store).1 = test.credit ⟨id, run, .untimed⟩ := rfl

theorem absorbStore_records (test : LogicalTest) (run : Execution) (id : String) :
    (test.absorbStore run.dump.store).1 = test.credit ⟨id, run, .records⟩ := rfl

end LogicalTest

def PendingHook.ofRun (run : Execution) : PendingHook := ⟨run.id, run.result, run.dump.store⟩

namespace LogicalTest

theorem absorbHooks_untimed (test : LogicalTest) (hooks : List Execution) (id : String) :
    (test.absorbHooks (hooks.map PendingHook.ofRun)).1 =
      (hooks.map fun hook => Credit.mk id hook .untimed).foldl credit test := by
  unfold absorbHooks
  generalize ([] : List AttributionNotice) = notices
  induction hooks generalizing test notices with
  | nil => rfl
  | cons hook rest ih => exact ih (test.credit ⟨id, hook, .untimed⟩) _

end LogicalTest

/-! ## Identifiers in the order in which they first appear -/

/-- The identifiers with one more, at the end if it is new. -/
def addId (ids : List String) (id : String) : List String := if id ∈ ids then ids else ids ++ [id]

theorem mem_addId {ids : List String} {id other : String} :
    other ∈ addId ids id ↔ other ∈ ids ∨ other = id := by
  unfold addId
  split
  · next h =>
    constructor
    · exact Or.inl
    · rintro (hother | rfl)
      · exact hother
      · exact h
  · simp

theorem nodup_addId {ids : List String} (h : ids.Nodup) (id : String) : (addId ids id).Nodup := by
  unfold addId
  split
  · exact h
  · next hnew =>
    have hne : ∀ other ∈ ids, other ≠ id := fun other hother => ne_of_mem_of_not_mem hother hnew
    simpa [List.nodup_append] using ⟨h, hne⟩

theorem idxOf?_addId {ids : List String} {id other : String} {position : Nat}
    (h : ids.idxOf? other = some position) : (addId ids id).idxOf? other = some position := by
  unfold addId
  split
  · exact h
  · simp only [List.idxOf?] at h ⊢
    rw [List.findIdx?_append, h, Option.some_or]

theorem eraseDups_append_singleton (ids : List String) (id : String) :
    (ids ++ [id]).eraseDups = addId ids.eraseDups id := by
  rw [List.eraseDups_append, addId]
  by_cases h : id ∈ ids
  · simp [h, List.removeAll]
  · simp [h, List.removeAll, List.eraseDups_cons]

/-! ## What was gathered, as credits -/

namespace Attribution

/-- The tests are the sums of the credits, in the order of the identifiers, and each test is
found under its identifier. -/
structure Shows (state : Attribution) (ids : List String) (credits : List Credit) : Prop where
  nodup : ids.Nodup
  credited : ∀ c ∈ credits, c.test ∈ ids
  tests : state.tests = ids.map (LogicalTest.ofCredits credits)
  positions : ∀ id, state.positions.find? id = ids.idxOf? id

theorem shows_empty : Shows empty [] [] := ⟨List.nodup_nil, by simp, rfl, fun _ => rfl⟩

@[simp] theorem classes_change (state : Attribution) (position : Nat)
    (f : LogicalTest → LogicalTest × List AttributionNotice) :
    (state.change position f).classes = state.classes := by
  unfold change
  split <;> rfl

@[simp] theorem unresolved_change (state : Attribution) (position : Nat)
    (f : LogicalTest → LogicalTest × List AttributionNotice) :
    (state.change position f).unresolved = state.unresolved := by
  unfold change
  split <;> rfl

@[simp] theorem classes_locate (state : Attribution) (id : String) :
    (state.locate id).1.classes = state.classes := by
  unfold locate
  split <;> rfl

@[simp] theorem unresolved_locate (state : Attribution) (id : String) :
    (state.locate id).1.unresolved = state.unresolved := by
  unfold locate
  split <;> rfl

@[simp] theorem classes_upsert (state : Attribution) (id : String) (result : TestResult)
    (duration : Duration) (store : ProbeStore) :
    (state.upsert id result duration store).1.classes = state.classes := by
  simp [upsert]

@[simp] theorem unresolved_upsert (state : Attribution) (id : String) (result : TestResult)
    (duration : Duration) (store : ProbeStore) :
    (state.upsert id result duration store).1.unresolved = state.unresolved := by
  simp [upsert]

variable {state : Attribution} {ids : List String} {credits : List Credit}

theorem Shows.congr {other : Attribution} (h : state.Shows ids credits)
    (htests : other.tests = state.tests) (hpositions : other.positions = state.positions) :
    other.Shows ids credits :=
  ⟨h.nodup, h.credited, htests.trans h.tests, fun id => hpositions ▸ h.positions id⟩

theorem Shows.locate (h : state.Shows ids credits) (id : String) :
    (state.locate id).1.Shows (addId ids id) credits ∧
      (addId ids id).idxOf? id = some (state.locate id).2 := by
  unfold Attribution.locate
  rw [h.positions id]
  cases hfound : ids.idxOf? id with
  | some position =>
    have hmem : id ∈ ids := by
      by_contra hnot
      rw [List.idxOf?_eq_none_iff.mpr hnot] at hfound
      cases hfound
    have hids : addId ids id = ids := if_pos hmem
    rw [hids]
    exact ⟨h, hfound⟩
  | none =>
    have hnew : id ∉ ids := List.idxOf?_eq_none_iff.mp hfound
    have hids : addId ids id = ids ++ [id] := if_neg hnew
    have hlength : state.tests.length = ids.length := by rw [h.tests, List.length_map]
    have hsum : LogicalTest.ofCredits credits id = .ofId id :=
      LogicalTest.ofCredits_of_not_mem fun c hc => ne_of_mem_of_not_mem (h.credited c hc) hnew
    have hlast : (ids ++ [id]).idxOf? id = some ids.length := by
      simp only [List.idxOf?] at hfound ⊢
      rw [List.findIdx?_append, hfound]
      simp [List.findIdx?_cons]
    refine ⟨⟨nodup_addId h.nodup id, ?_, ?_, ?_⟩, ?_⟩
    · exact fun c hc => mem_addId.mpr (Or.inl (h.credited c hc))
    · simp [hids, h.tests, hsum]
    · intro other
      rw [OrderedMap.find?_set, hlength, h.positions other, hids]
      by_cases heq : id = other
      · subst heq
        rw [if_pos rfl, hlast]
      · rw [if_neg heq]
        simp only [List.idxOf?]
        rw [List.findIdx?_append]
        simp [List.findIdx?_cons, heq]
    · rw [hids, hlast, hlength]

/-- A change of the test of an identifier by credits of that identifier. -/
theorem Shows.change {position : Nat} {id : String} {more : List Credit}
    {f : LogicalTest → LogicalTest × List AttributionNotice} (h : state.Shows ids credits)
    (hposition : ids.idxOf? id = some position) (hmore : ∀ c ∈ more, c.test = id)
    (hf : ∀ test, (f test).1 = more.foldl LogicalTest.credit test) :
    (state.change position f).Shows ids (credits ++ more) := by
  obtain ⟨hlt, hat, -⟩ := List.findIdx?_eq_some_iff_getElem.mp hposition
  have hid : ids[position] = id := by simpa using hat
  have htest : state.tests[position]? = some (LogicalTest.ofCredits credits id) := by
    rw [h.tests, List.getElem?_map, List.getElem?_eq_getElem hlt, hid, Option.map_some]
  have hchange : (state.change position f).tests =
      state.tests.set position
        (more.foldl LogicalTest.credit (LogicalTest.ofCredits credits id)) := by
    simp only [Attribution.change, htest, hf]
  have hpositions : (state.change position f).positions = state.positions := by
    simp only [Attribution.change, htest]
  refine ⟨h.nodup, ?_, ?_, ?_⟩
  · intro c hc
    rcases List.mem_append.mp hc with hc | hc
    · exact h.credited c hc
    · rw [hmore c hc, ← hid]
      exact List.getElem_mem hlt
  · rw [hchange, h.tests]
    apply List.ext_getElem
    · simp
    · intro i hi hi'
      have hlti : i < ids.length := by simpa using hi'
      rw [List.getElem_set, List.getElem_map, List.getElem_map]
      by_cases heq : position = i
      · subst heq
        rw [if_pos rfl, hid, LogicalTest.ofCredits_append_of_eq hmore]
      · have hne : ids[i] ≠ id := by
          rw [← hid]
          exact fun hsame => heq ((h.nodup.getElem_inj_iff).mp hsame).symm
        have hother : ∀ c ∈ more, c.test ≠ ids[i] := fun c hc => hmore c hc ▸ hne.symm
        rw [if_neg heq, LogicalTest.ofCredits_append_of_ne hother]
  · intro other
    rw [hpositions, h.positions other]

/-- A run is added to the test of its identifier, which is begun if it is new. -/
theorem Shows.upsert {result : TestResult} {duration : Duration} {store : ProbeStore} {c : Credit}
    (h : state.Shows ids credits)
    (hc : ∀ test, (test.absorbRun result duration store).1 = LogicalTest.credit test c) :
    (state.upsert c.test result duration store).1.Shows (addId ids c.test) (credits ++ [c]) ∧
      (addId ids c.test).idxOf? c.test =
        some (state.upsert c.test result duration store).2 := by
  obtain ⟨hlocate, hposition⟩ := h.locate c.test
  have hone : ∀ d ∈ [c], d.test = c.test := by simp
  exact ⟨hlocate.change hposition hone hc, hposition⟩

end Attribution

end TestCoverage

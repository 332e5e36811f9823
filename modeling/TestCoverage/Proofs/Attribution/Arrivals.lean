import Mathlib
import TestCoverage.Proofs.Attribution.Credits

/-!
# Attribution by looking ahead and looking back

The executions of a run are known by their positions. A hook before the tests of a class is
attributed to the first later test of its class, a hook after them to the last earlier one
(`Arrivals.attributed?`). From that follow the credits of every logical test
(`Arrivals.credits`), the logical tests and the unresolved hooks, without a state that is
carried along.

Looking ahead does not go well with taking one execution after the other, so the second part
says what one more execution at the end changes: `waiting_snoc`, `lastTest?_snoc`,
`arrivalCredits_snoc` and `loneAfter_snoc`. Later proofs only use these.
-/

namespace TestCoverage

namespace Execution

/-- A hook before the tests of a class. -/
def isBefore (run : Execution) : Bool := run.kind = .beforeClass run.kind.owner

/-- A hook after the tests of a class. -/
def isAfter (run : Execution) : Bool := run.kind = .afterClass run.kind.owner

end Execution

def UnresolvedHook.ofRun (hook : Execution) : UnresolvedHook := ⟨hook.id, hook.kind⟩

namespace Arrivals

/-- The executions that count are those with an identifier. -/
def named (executions : List Execution) : List Execution := executions.filter (·.id ≠ "")

theorem named_snoc (executions : List Execution) (run : Execution) :
    named (executions ++ [run]) = named executions ++ if run.id = "" then [] else [run] := by
  unfold named
  by_cases hid : run.id = "" <;> simp [hid]

/-! ## Attribution -/

/-- A test of the class ran at the position. -/
def isTestAt (runs : List Execution) (owner : String) (i : Nat) : Bool :=
  runs[i]?.any (·.kind = .test owner)

/-- The first test of a class after a position. -/
def nextTest? (runs : List Execution) (owner : String) (i : Nat) : Option Nat :=
  ((List.range runs.length).filter fun j => i < j && isTestAt runs owner j).head?

/-- The last test of a class before a position. -/
def previousTest? (runs : List Execution) (owner : String) (i : Nat) : Option Nat :=
  ((List.range i).filter (isTestAt runs owner)).getLast?

/-- The position of the test that the hook at a position counts for. -/
def attributed? (runs : List Execution) (i : Nat) : Option Nat :=
  match runs[i]? with
  | none => none
  | some run =>
    match run.kind with
    | .test _ => none
    | .beforeClass owner => nextTest? runs owner i
    | .afterClass owner => previousTest? runs owner i

/-- The hook before the tests of a class that ran at a position, if it has this attribution. -/
def beforeHookAt (runs : List Execution) (target : Option Nat) (i : Nat) : Option Execution :=
  runs[i]?.filter fun run => run.isBefore && attributed? runs i = target

/-- The hooks before the tests of their classes with this attribution, in order. -/
def beforeHooks (runs : List Execution) (target : Option Nat) : List Execution :=
  (List.range runs.length).filterMap (beforeHookAt runs target)

/-- The hooks after the tests of their classes that have no test, in order. -/
def loneAfter (runs : List Execution) : List Execution :=
  (List.range runs.length).filterMap fun i =>
    runs[i]?.filter fun run => run.isAfter && (attributed? runs i).isNone

/-- The hooks before the tests of their classes that have no test, by ascending names of the
classes and in order within a class. -/
def loneBefore (runs : List Execution) : List Execution :=
  (beforeHooks runs none).mergeSort fun a b => a.kind.owner ≤ b.kind.owner

/-! ## Credits and tests -/

/-- Where the execution at a position and the hooks that wait for it count. -/
def creditsAt (runs : List Execution) (i : Nat) : List Credit :=
  match runs[i]? with
  | none => []
  | some run =>
    match run.kind with
    | .test _ =>
      ⟨run.id, run, .whole⟩ ::
        (beforeHooks runs (some i)).map fun hook => ⟨run.id, hook, .untimed⟩
    | .beforeClass _ => []
    | .afterClass _ =>
      ((attributed? runs i).bind (runs[·]?)).toList.map (fun test => ⟨test.id, run, .records⟩) ++
        [⟨run.id, run, .untimed⟩]

/-- The credits that are settled when the last execution has arrived. -/
def arrivalCredits (runs : List Execution) : List Credit :=
  (List.range runs.length).flatMap (creditsAt runs)

def loneCredit (hook : Execution) : Credit := ⟨hook.id, hook, .untimed⟩

/-- All credits, in the order in which they count. -/
def credits (runs : List Execution) : List Credit :=
  arrivalCredits runs ++ (loneBefore runs).map loneCredit

/-- The identifiers of the tests and of the hooks after tests, in the order in which they
first appear. -/
def arrivalIds (runs : List Execution) : List String :=
  ((runs.filter (!·.isBefore)).map (·.id)).eraseDups

def ids (runs : List Execution) : List String :=
  ((runs.filter (!·.isBefore)).map (·.id) ++ (loneBefore runs).map (·.id)).eraseDups

def tests (runs : List Execution) : List LogicalTest :=
  (ids runs).map (LogicalTest.ofCredits (credits runs))

def unresolved (runs : List Execution) : List UnresolvedHook :=
  (loneAfter runs ++ loneBefore runs).map .ofRun

/-! ## One more execution -/

/-- The hooks that wait for a test of a class. -/
def waiting (runs : List Execution) (owner : String) : List Execution :=
  (beforeHooks runs none).filter (·.kind.owner = owner)

/-- The identifier of the last test of a class. -/
def lastTest? (runs : List Execution) (owner : String) : Option String :=
  ((previousTest? runs owner runs.length).bind (runs[·]?)).map (·.id)

/-- The credits that are settled by one more execution. -/
def arriving (runs : List Execution) (run : Execution) : List Credit :=
  match run.kind with
  | .test owner =>
    ⟨run.id, run, .whole⟩ :: (waiting runs owner).map fun hook => ⟨run.id, hook, .untimed⟩
  | .beforeClass _ => []
  | .afterClass owner =>
    (lastTest? runs owner).toList.map (fun id => ⟨id, run, .records⟩) ++
      [⟨run.id, run, .untimed⟩]

variable {runs : List Execution} {run : Execution} {owner : String}

theorem isTestAt_snoc {i : Nat} (hi : i < runs.length) :
    isTestAt (runs ++ [run]) owner i = isTestAt runs owner i := by
  rw [isTestAt, isTestAt, List.getElem?_append_left hi]

theorem isTestAt_length :
    isTestAt (runs ++ [run]) owner runs.length = decide (run.kind = .test owner) := by
  simp [isTestAt]

theorem nextTest?_lt {i j : Nat} (h : nextTest? runs owner i = some j) : j < runs.length := by
  have hmem := List.mem_of_head? h
  simp only [List.mem_filter, List.mem_range] at hmem
  exact hmem.1

/-- Looking ahead, one more execution counts only if there is no test before it. -/
theorem nextTest?_snoc {i : Nat} (hi : i < runs.length) :
    nextTest? (runs ++ [run]) owner i =
      (nextTest? runs owner i).or (if run.kind = .test owner then some runs.length else none) := by
  have hold : (List.range runs.length).filter
        (fun j => i < j && isTestAt (runs ++ [run]) owner j) =
      (List.range runs.length).filter fun j => i < j && isTestAt runs owner j := by
    apply List.filter_congr
    intro j hj
    rw [isTestAt_snoc (List.mem_range.mp hj)]
  unfold nextTest?
  rw [List.length_append, List.length_singleton, List.range_succ, List.filter_append, hold,
    List.head?_append]
  congr 1
  simp only [List.filter_cons, List.filter_nil, isTestAt_length, hi, decide_true, Bool.true_and]
  split <;> simp_all

/-- Looking back, later executions do not count. -/
theorem previousTest?_snoc {i : Nat} (hi : i ≤ runs.length) :
    previousTest? (runs ++ [run]) owner i = previousTest? runs owner i := by
  unfold previousTest?
  congr 1
  apply List.filter_congr
  intro j hj
  exact isTestAt_snoc (Nat.lt_of_lt_of_le (List.mem_range.mp hj) hi)

theorem previousTest?_lt {i j : Nat} (h : previousTest? runs owner i = some j) : j < i := by
  have hmem := List.mem_of_getLast? h
  simp only [List.mem_filter, List.mem_range] at hmem
  exact hmem.1

theorem lastTest?_snoc : lastTest? (runs ++ [run]) owner =
    if run.kind = .test owner then some run.id else lastTest? runs owner := by
  have hsplit : previousTest? (runs ++ [run]) owner (runs.length + 1) =
      if run.kind = .test owner then some runs.length
      else previousTest? (runs ++ [run]) owner runs.length := by
    unfold previousTest?
    rw [List.range_succ, List.filter_append, List.filter_cons, isTestAt_length]
    split <;> simp_all
  unfold lastTest?
  rw [List.length_append, List.length_singleton, hsplit, previousTest?_snoc (Nat.le_refl _)]
  split
  · simp
  · cases hprevious : previousTest? runs owner runs.length with
    | none => rfl
    | some j =>
      have hj := previousTest?_lt hprevious
      simp only [Option.bind_some, List.getElem?_append_left hj]

/-! ### Hooks before tests -/

theorem attributed?_of_isBefore {i : Nat} {hook : Execution} (hhook : runs[i]? = some hook)
    (hbefore : hook.isBefore = true) :
    attributed? runs i = nextTest? runs hook.kind.owner i := by
  have hkind : hook.kind = .beforeClass hook.kind.owner := of_decide_eq_true hbefore
  unfold attributed?
  rw [hhook]
  dsimp only
  split
  · next heq => rw [heq] at hkind; cases hkind
  · next heq => rw [heq]; rfl
  · next heq => rw [heq] at hkind; cases hkind

theorem attributed?_of_isAfter {i : Nat} {hook : Execution} (hhook : runs[i]? = some hook)
    (hafter : hook.isAfter = true) :
    attributed? runs i = previousTest? runs hook.kind.owner i := by
  have hkind : hook.kind = .afterClass hook.kind.owner := of_decide_eq_true hafter
  unfold attributed?
  rw [hhook]
  dsimp only
  split
  · next heq => rw [heq] at hkind; cases hkind
  · next heq => rw [heq] at hkind; cases hkind
  · next heq => rw [heq]; rfl

/-- The attribution of an earlier hook is one that it had before, or the execution itself. -/
theorem beforeHookAt_snoc {i : Nat} (hi : i < runs.length) (target : Option Nat) :
    beforeHookAt (runs ++ [run]) target i =
      runs[i]?.filter fun hook => hook.isBefore &&
        (attributed? runs i).or
          (if run.kind = .test hook.kind.owner then some runs.length else none) = target := by
  unfold beforeHookAt
  rw [List.getElem?_append_left hi]
  cases hhook : runs[i]? with
  | none => rfl
  | some hook =>
    simp only [Option.filter_some]
    by_cases hbefore : hook.isBefore = true
    · have hhook' : (runs ++ [run])[i]? = some hook := by
        rw [List.getElem?_append_left hi, hhook]
      rw [attributed?_of_isBefore hhook hbefore, attributed?_of_isBefore hhook' hbefore,
        nextTest?_snoc hi]
    · simp [hbefore]

theorem beforeHookAt_length (target : Option Nat) :
    beforeHookAt (runs ++ [run]) target runs.length =
      if run.isBefore = true ∧ target = none then some run else none := by
  have hhook : (runs ++ [run])[runs.length]? = some run := by simp
  have hnone : nextTest? (runs ++ [run]) run.kind.owner runs.length = none := by
    rw [nextTest?, List.head?_eq_none_iff, List.filter_eq_nil_iff]
    intro j hj
    have hle : j ≤ runs.length := by simpa [Nat.lt_succ_iff] using hj
    simp [Nat.not_lt.mpr hle]
  unfold beforeHookAt
  rw [hhook, Option.filter_some]
  by_cases hbefore : run.isBefore = true
  · rw [attributed?_of_isBefore hhook hbefore, hnone]
    simp [hbefore, eq_comm]
  · simp [hbefore]

theorem attributed?_lt {i j : Nat} (h : attributed? runs i = some j) : j < runs.length := by
  unfold attributed? at h
  split at h
  · cases h
  · next run hrun =>
    split at h
    · cases h
    · exact nextTest?_lt h
    · exact Nat.lt_trans (previousTest?_lt h) (List.getElem?_eq_some_iff.mp hrun).1

theorem beforeHooks_snoc_of_lt {j : Nat} (hj : j < runs.length) :
    beforeHooks (runs ++ [run]) (some j) = beforeHooks runs (some j) := by
  unfold beforeHooks
  rw [List.length_append, List.length_singleton, List.range_succ, List.filterMap_append,
    List.filterMap_cons, beforeHookAt_length]
  simp only [reduceCtorEq, and_false, if_false, List.filterMap_nil, List.append_nil]
  apply List.filterMap_congr
  intro i hi
  rw [beforeHookAt_snoc (List.mem_range.mp hi)]
  unfold beforeHookAt
  congr 1
  funext hook
  cases attributed? runs i with
  | some k => rfl
  | none =>
    have hne : runs.length ≠ j := Nat.ne_of_gt hj
    split <;> simp [hne]

theorem beforeHooks_snoc_length :
    beforeHooks (runs ++ [run]) (some runs.length) =
      (beforeHooks runs none).filter fun hook => run.kind = .test hook.kind.owner := by
  unfold beforeHooks
  rw [List.length_append, List.length_singleton, List.range_succ, List.filterMap_append,
    List.filterMap_cons, beforeHookAt_length]
  simp only [reduceCtorEq, and_false, if_false, List.filterMap_nil, List.append_nil]
  rw [List.filter_filterMap]
  apply List.filterMap_congr
  intro i hi
  rw [beforeHookAt_snoc (List.mem_range.mp hi)]
  unfold beforeHookAt
  rw [Option.filter_filter]
  congr 1
  funext hook
  cases hattributed : attributed? runs i with
  | some k =>
    have hne : k ≠ runs.length := Nat.ne_of_lt (attributed?_lt hattributed)
    simp [hne]
  | none => by_cases hkind : run.kind = .test hook.kind.owner <;> simp [hkind]

theorem beforeHooks_snoc_none :
    beforeHooks (runs ++ [run]) none =
      ((beforeHooks runs none).filter fun hook => run.kind ≠ .test hook.kind.owner) ++
        if run.isBefore then [run] else [] := by
  unfold beforeHooks
  rw [List.length_append, List.length_singleton, List.range_succ, List.filterMap_append,
    List.filterMap_cons, beforeHookAt_length, List.filter_filterMap]
  congr 1
  · apply List.filterMap_congr
    intro i hi
    rw [beforeHookAt_snoc (List.mem_range.mp hi)]
    unfold beforeHookAt
    rw [Option.filter_filter]
    congr 1
    funext hook
    cases attributed? runs i with
    | some k => simp
    | none => by_cases hkind : run.kind = .test hook.kind.owner <;> simp [hkind]
  · cases run.isBefore <;> rfl

theorem owner_of_mem_waiting {hook : Execution} (h : hook ∈ waiting runs owner) :
    hook.kind.owner = owner := by
  simpa using (List.mem_filter.mp h).2

theorem mem_beforeHooks_iff {target : Option Nat} {hook : Execution} :
    hook ∈ beforeHooks runs target ↔
      ∃ i, runs[i]? = some hook ∧ hook.isBefore = true ∧ attributed? runs i = target := by
  simp only [beforeHooks, beforeHookAt, List.mem_filterMap, List.mem_range,
    Option.filter_eq_some_iff, Bool.and_eq_true, decide_eq_true_eq]
  constructor
  · rintro ⟨i, -, hhook, hbefore, htarget⟩
    exact ⟨i, hhook, hbefore, htarget⟩
  · rintro ⟨i, hhook, hbefore, htarget⟩
    exact ⟨i, (List.getElem?_eq_some_iff.mp hhook).1, hhook, hbefore, htarget⟩

theorem mem_loneBefore_iff {hook : Execution} :
    hook ∈ loneBefore runs ↔
      ∃ i, runs[i]? = some hook ∧ hook.isBefore = true ∧ attributed? runs i = none := by
  rw [loneBefore, List.mem_mergeSort, mem_beforeHooks_iff]

theorem waiting_snoc : waiting (runs ++ [run]) owner =
    if run.kind = .test owner then []
    else if run.kind = .beforeClass owner then waiting runs owner ++ [run]
    else waiting runs owner := by
  have hold : ((beforeHooks runs none).filter fun hook => run.kind ≠ .test hook.kind.owner).filter
        (fun hook => hook.kind.owner = owner) =
      if run.kind = .test owner then [] else waiting runs owner := by
    rw [List.filter_filter]
    split
    · next htest =>
      rw [List.filter_eq_nil_iff]
      intro hook _
      by_cases howner : hook.kind.owner = owner <;> simp [htest, howner]
    · next htest =>
      apply List.filter_congr
      intro hook _
      by_cases howner : hook.kind.owner = owner <;> simp [htest, howner]
  have hnew : (if run.isBefore then [run] else []).filter (fun hook => hook.kind.owner = owner) =
      if run.kind = .beforeClass owner then [run] else [] := by
    cases hkind : run.kind with
    | test other => simp [Execution.isBefore, hkind]
    | beforeClass other =>
      by_cases howner : other = owner <;>
        simp [Execution.isBefore, hkind, TestKind.owner, howner]
    | afterClass other => simp [Execution.isBefore, hkind]
  rw [waiting, beforeHooks_snoc_none, List.filter_append, hold, hnew]
  split
  · next htest => simp [htest]
  · split <;> simp

/-! ### Credits -/

theorem creditsAt_snoc {i : Nat} (hi : i < runs.length) :
    creditsAt (runs ++ [run]) i = creditsAt runs i := by
  unfold creditsAt
  rw [List.getElem?_append_left hi]
  cases hother : runs[i]? with
  | none => rfl
  | some other =>
    dsimp only
    cases hkind : other.kind with
    | test class' =>
      dsimp only
      rw [beforeHooks_snoc_of_lt hi]
    | beforeClass class' => rfl
    | afterClass class' =>
      have hafter : other.isAfter = true := by simp [Execution.isAfter, hkind, TestKind.owner]
      have hother' : (runs ++ [run])[i]? = some other := by
        rw [List.getElem?_append_left hi, hother]
      dsimp only
      rw [attributed?_of_isAfter hother hafter, attributed?_of_isAfter hother' hafter,
        previousTest?_snoc (Nat.le_of_lt hi)]
      cases hprevious : previousTest? runs other.kind.owner i with
      | none => rfl
      | some j =>
        have hj : j < runs.length := Nat.lt_trans (previousTest?_lt hprevious) hi
        simp only [Option.bind_some, List.getElem?_append_left hj]

theorem lastTest?_eq_of_isAfter (hafter : run.isAfter = true) :
    ((attributed? (runs ++ [run]) runs.length).bind ((runs ++ [run])[·]?)).map (·.id) =
      lastTest? runs run.kind.owner := by
  have hrun : (runs ++ [run])[runs.length]? = some run := by simp
  rw [attributed?_of_isAfter hrun hafter, previousTest?_snoc (Nat.le_refl _), lastTest?]
  cases hprevious : previousTest? runs run.kind.owner runs.length with
  | none => rfl
  | some j => simp only [Option.bind_some, List.getElem?_append_left (previousTest?_lt hprevious)]

theorem creditsAt_length : creditsAt (runs ++ [run]) runs.length = arriving runs run := by
  have hrun : (runs ++ [run])[runs.length]? = some run := by simp
  unfold creditsAt arriving
  rw [hrun]
  dsimp only
  cases hkind : run.kind with
  | test owner =>
    dsimp only
    rw [beforeHooks_snoc_length, waiting]
    simp only [hkind, TestKind.test.injEq, eq_comm]
  | beforeClass owner => rfl
  | afterClass owner =>
    have hafter : run.isAfter = true := by simp [Execution.isAfter, hkind, TestKind.owner]
    have howner : run.kind.owner = owner := by rw [hkind]; rfl
    dsimp only
    rw [← howner, ← lastTest?_eq_of_isAfter hafter, Option.toList_map, List.map_map]
    rfl

theorem arrivalCredits_snoc :
    arrivalCredits (runs ++ [run]) = arrivalCredits runs ++ arriving runs run := by
  have hold : (List.range runs.length).map (creditsAt (runs ++ [run])) =
      (List.range runs.length).map (creditsAt runs) :=
    List.map_congr_left fun i hi => creditsAt_snoc (List.mem_range.mp hi)
  unfold arrivalCredits
  rw [List.length_append, List.length_singleton, List.range_succ, List.flatMap_append,
    List.flatMap_def, hold, ← List.flatMap_def, List.flatMap_singleton, creditsAt_length]

theorem arrivalIds_snoc : arrivalIds (runs ++ [run]) =
    if run.isBefore then arrivalIds runs else addId (arrivalIds runs) run.id := by
  unfold arrivalIds
  rw [List.filter_append, List.map_append]
  cases hbefore : run.isBefore with
  | true => simp [hbefore]
  | false => simp [hbefore, eraseDups_append_singleton]

theorem loneAfter_snoc : loneAfter (runs ++ [run]) =
    loneAfter runs ++
      if run.isAfter ∧ lastTest? runs run.kind.owner = none then [run] else [] := by
  have hrun : (runs ++ [run])[runs.length]? = some run := by simp
  unfold loneAfter
  rw [List.length_append, List.length_singleton, List.range_succ, List.filterMap_append]
  congr 1
  · apply List.filterMap_congr
    intro i hi
    have hlt := List.mem_range.mp hi
    rw [List.getElem?_append_left hlt]
    cases hother : runs[i]? with
    | none => rfl
    | some other =>
      have hother' : (runs ++ [run])[i]? = some other := by
        rw [List.getElem?_append_left hlt, hother]
      simp only [Option.filter_some]
      by_cases hafter : other.isAfter = true
      · rw [attributed?_of_isAfter hother hafter, attributed?_of_isAfter hother' hafter,
          previousTest?_snoc (Nat.le_of_lt hlt)]
      · simp [hafter]
  · rw [List.filterMap_cons, hrun, Option.filter_some]
    by_cases hafter : run.isAfter = true
    · rw [← lastTest?_eq_of_isAfter hafter]
      cases hattributed : attributed? (runs ++ [run]) runs.length with
      | none => simp [hafter]
      | some j =>
        have hj := List.getElem?_eq_getElem (attributed?_lt hattributed)
        simp [hj]
    · simp [hafter]

/-- The last test of a class has a logical test. -/
theorem lastTest?_mem {id : String} (h : lastTest? runs owner = some id) :
    id ∈ arrivalIds runs := by
  induction runs using List.reverseRecOn with
  | nil => simp [lastTest?, previousTest?] at h
  | append_singleton runs run ih =>
    rw [lastTest?_snoc] at h
    rw [arrivalIds_snoc]
    split at h
    · next htest =>
      have hbefore : run.isBefore = false := by simp [Execution.isBefore, htest]
      simp only [hbefore, Bool.false_eq_true, if_false]
      exact mem_addId.mpr (Or.inr (Option.some.inj h).symm)
    · split
      · exact ih h
      · exact mem_addId.mpr (Or.inl (ih h))

/-- The logical tests are those of the tests, of the hooks after tests, and of the hooks
before tests that have no test. -/
theorem mem_ids_iff {id : String} :
    id ∈ ids runs ↔ ∃ i run, runs[i]? = some run ∧ run.id = id ∧
      (run.isBefore = true → attributed? runs i = none) := by
  rw [ids, List.mem_eraseDups, List.mem_append, List.mem_map, List.mem_map]
  constructor
  · rintro (⟨run, hrun, rfl⟩ | ⟨hook, hhook, rfl⟩)
    · obtain ⟨hmem, hbefore⟩ := List.mem_filter.mp hrun
      obtain ⟨i, hi⟩ := List.mem_iff_getElem?.mp hmem
      exact ⟨i, run, hi, rfl, fun h => by simp [h] at hbefore⟩
    · obtain ⟨i, hi, -, hnone⟩ := mem_loneBefore_iff.mp hhook
      exact ⟨i, hook, hi, rfl, fun _ => hnone⟩
  · rintro ⟨i, run, hi, rfl, hlone⟩
    cases hbefore : run.isBefore with
    | false =>
      refine Or.inl ⟨run, List.mem_filter.mpr ⟨List.mem_iff_getElem?.mpr ⟨i, hi⟩, ?_⟩, rfl⟩
      simp [hbefore]
    | true => exact Or.inr ⟨run, mem_loneBefore_iff.mpr ⟨i, hi, hbefore, hlone hbefore⟩, rfl⟩

end Arrivals

end TestCoverage

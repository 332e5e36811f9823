import Mathlib
import TestCoverage.Proofs.Attribution.Contributions

/-!
# Attribution does not look at stores

Where an execution counts depends on identifiers and kinds. So when every execution gets
another store (`Execution.withStore`), the credits are those of before with the other stores
(`Arrivals.credits_withStore`), the logical tests have the same identifiers
(`Arrivals.ids_withStore`) and the same hooks stand for themselves
(`Arrivals.unresolved_withStore`). A sum of such credits differs in its store only, which
merges the other stores (`LogicalTest.ofCredits_withStore`).
-/

namespace TestCoverage

/-- The execution with what `f` makes of its store. -/
def Execution.withStore (f : ProbeStore → ProbeStore) (run : Execution) : Execution :=
  { run with dump := ⟨run.dump.session, f run.dump.store⟩ }

/-- The credit for the execution with another store. -/
def Credit.withStore (f : ProbeStore → ProbeStore) (c : Credit) : Credit :=
  ⟨c.test, c.run.withStore f, c.share⟩

namespace Arrivals

variable (f : ProbeStore → ProbeStore) (runs : List Execution)

/-! ## Attribution -/

theorem isTestAt_withStore (owner : String) (i : Nat) :
    isTestAt (runs.map (·.withStore f)) owner i = isTestAt runs owner i := by
  unfold isTestAt
  rw [List.getElem?_map, Option.any_map]
  rfl

theorem nextTest?_withStore (owner : String) (i : Nat) :
    nextTest? (runs.map (·.withStore f)) owner i = nextTest? runs owner i := by
  unfold nextTest?
  simp only [List.length_map, isTestAt_withStore]

theorem previousTest?_withStore (owner : String) (i : Nat) :
    previousTest? (runs.map (·.withStore f)) owner i = previousTest? runs owner i := by
  unfold previousTest?
  rw [List.filter_congr fun j _ => isTestAt_withStore f runs owner j]

theorem attributed?_withStore (i : Nat) :
    attributed? (runs.map (·.withStore f)) i = attributed? runs i := by
  unfold attributed?
  rw [List.getElem?_map]
  cases runs[i]? with
  | none => rfl
  | some run =>
    simp only [Option.map_some, nextTest?_withStore, previousTest?_withStore]
    rfl

theorem beforeHooks_withStore (target : Option Nat) :
    beforeHooks (runs.map (·.withStore f)) target =
      (beforeHooks runs target).map (·.withStore f) := by
  unfold beforeHooks
  rw [List.length_map, List.map_filterMap]
  refine List.filterMap_congr fun i _ => ?_
  unfold beforeHookAt
  rw [attributed?_withStore, List.getElem?_map]
  exact Option.filter_map

theorem loneAfter_withStore :
    loneAfter (runs.map (·.withStore f)) = (loneAfter runs).map (·.withStore f) := by
  unfold loneAfter
  rw [List.length_map, List.map_filterMap]
  refine List.filterMap_congr fun i _ => ?_
  rw [attributed?_withStore, List.getElem?_map]
  exact Option.filter_map

theorem loneBefore_withStore :
    loneBefore (runs.map (·.withStore f)) = (loneBefore runs).map (·.withStore f) := by
  unfold loneBefore
  rw [beforeHooks_withStore]
  exact (List.map_mergeSort (f := Execution.withStore f) fun _ _ _ _ => rfl).symm

/-! ## Credits and tests -/

theorem creditsAt_withStore (i : Nat) :
    creditsAt (runs.map (·.withStore f)) i = (creditsAt runs i).map (·.withStore f) := by
  unfold creditsAt
  rw [List.getElem?_map]
  cases runs[i]? with
  | none => rfl
  | some run =>
    have hkind : (run.withStore f).kind = run.kind := rfl
    simp only [Option.map_some, hkind]
    cases run.kind with
    | test owner =>
      rw [beforeHooks_withStore, List.map_cons, List.map_map, List.map_map]
      rfl
    | beforeClass owner => rfl
    | afterClass owner =>
      rw [attributed?_withStore]
      cases attributed? runs i with
      | none => rfl
      | some j =>
        simp only [Option.bind_some, List.getElem?_map]
        cases runs[j]? <;> rfl

/-- The credits are the same, for the executions with the other stores. -/
theorem credits_withStore :
    credits (runs.map (·.withStore f)) = (credits runs).map (·.withStore f) := by
  unfold credits arrivalCredits
  rw [loneBefore_withStore, List.length_map, List.map_append, List.map_flatMap, List.map_map,
    List.map_map]
  congr 1
  exact List.flatMap_congr fun i _ => creditsAt_withStore f runs i

theorem ids_withStore : ids (runs.map (·.withStore f)) = ids runs := by
  unfold ids
  rw [loneBefore_withStore, List.filter_map, List.map_map, List.map_map]
  rfl

theorem unresolved_withStore : unresolved (runs.map (·.withStore f)) = unresolved runs := by
  unfold unresolved
  rw [loneAfter_withStore, loneBefore_withStore, ← List.map_append, List.map_map]
  rfl

theorem named_withStore :
    named (runs.map (·.withStore f)) = (named runs).map (·.withStore f) := by
  unfold named
  rw [List.filter_map]
  rfl

end Arrivals

namespace LogicalTest

theorem foldl_credit_withStore (f : ProbeStore → ProbeStore) (credits : List Credit)
    {test other : LogicalTest} (hid : test.id = other.id) (hresult : test.result = other.result)
    (hduration : test.duration = other.duration) :
    let sum := (credits.map (·.withStore f)).foldl credit test
    let sum' := credits.foldl credit other
    sum.id = sum'.id ∧ sum.result = sum'.result ∧ sum.duration = sum'.duration := by
  induction credits generalizing test other with
  | nil => exact ⟨hid, hresult, hduration⟩
  | cons c rest ih =>
    refine ih hid ?_ ?_
    · unfold credit Credit.withStore
      cases c.share <;> simp [Execution.withStore, hresult]
    · unfold credit Credit.withStore
      cases c.share <;> simp [Execution.withStore, Execution.duration, hduration]

/-- A sum of credits with other stores differs in its store only. -/
theorem ofCredits_withStore (f : ProbeStore → ProbeStore) (credits : List Credit) (id : String) :
    let sum := ofCredits (credits.map (·.withStore f)) id
    let sum' := ofCredits credits id
    sum.id = sum'.id ∧ sum.result = sum'.result ∧ sum.duration = sum'.duration ∧
      sum.store = .mergeAll ((credits.filter (·.test = id)).map fun c => f c.run.dump.store) := by
  have hfilter : (credits.map (·.withStore f)).filter (·.test = id) =
      (credits.filter (·.test = id)).map (·.withStore f) := by
    rw [List.filter_map]
    rfl
  have hstore := store_ofCredits (credits.map (·.withStore f)) id
  rw [hfilter, List.map_map] at hstore
  have hsum := @foldl_credit_withStore f (credits.filter (·.test = id)) (ofId id) (ofId id)
    rfl rfl rfl
  rw [← hfilter] at hsum
  exact ⟨hsum.1, hsum.2.1, hsum.2.2, hstore⟩

end LogicalTest

end TestCoverage

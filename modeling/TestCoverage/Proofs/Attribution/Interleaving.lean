import Mathlib
import TestCoverage.Proofs.Attribution.Gathering

/-!
# Classes do not affect each other

When the kind of every execution is the one that its identifier says, an identifier determines
a test class, and every credit of the identifier comes from an execution of that class
(`Arrivals.filter_credits`). So the executions of other classes may be left out: what waits
for a class, its last test and its credits are those of the subsequence of the class
(`ofClass`).

`MergedTests.ofExecutions_interleaving` concludes that executions of different classes may
arrive interleaved in any way.
-/

namespace TestCoverage

/-- Lists that agree on every key hold the same elements. -/
theorem perm_of_filter_key_eq {α κ : Type} [DecidableEq κ] (key : α → κ) {first second : List α}
    (h : ∀ k, first.filter (key · = k) = second.filter (key · = k)) : first.Perm second := by
  classical
  rw [List.perm_iff_count]
  intro a
  have hcount := congrArg (List.count a) (h (key a))
  rwa [List.count_filter (by simp), List.count_filter (by simp)] at hcount

namespace Arrivals

/-- The executions of a class. -/
def ofClass (runs : List Execution) (owner : String) : List Execution :=
  runs.filter (·.kind.owner = owner)

/-- The kind of every execution is the one that its identifier says. -/
def Classified (runs : List Execution) : Prop := ∀ run ∈ runs, run.kind = .ofId run.id

variable {runs : List Execution} {run : Execution} {owner : String}

theorem ofClass_snoc : ofClass (runs ++ [run]) owner =
    if run.kind.owner = owner then ofClass runs owner ++ [run] else ofClass runs owner := by
  unfold ofClass
  rw [List.filter_append, List.filter_cons, List.filter_nil]
  split <;> simp_all

theorem Classified.init (h : Classified (runs ++ [run])) : Classified runs := fun other hother =>
  h other (List.mem_append_left _ hother)

theorem Classified.last (h : Classified (runs ++ [run])) : run.kind = .ofId run.id :=
  h run (by simp)

/-! ## Leaving other classes out -/

theorem waiting_ofClass : waiting (ofClass runs owner) owner = waiting runs owner := by
  induction runs using List.reverseRecOn with
  | nil => rfl
  | append_singleton runs run ih =>
    rw [ofClass_snoc, waiting_snoc]
    by_cases howner : run.kind.owner = owner
    · rw [if_pos howner, waiting_snoc, ih]
    · have htest : run.kind ≠ .test owner := fun h => howner (by rw [h]; rfl)
      have hbefore : run.kind ≠ .beforeClass owner := fun h => howner (by rw [h]; rfl)
      rw [if_neg howner, if_neg htest, if_neg hbefore, ih]

theorem lastTest?_ofClass : lastTest? (ofClass runs owner) owner = lastTest? runs owner := by
  induction runs using List.reverseRecOn with
  | nil => rfl
  | append_singleton runs run ih =>
    rw [ofClass_snoc, lastTest?_snoc]
    by_cases howner : run.kind.owner = owner
    · rw [if_pos howner, lastTest?_snoc, ih]
    · have htest : run.kind ≠ .test owner := fun h => howner (by rw [h]; rfl)
      rw [if_neg howner, if_neg htest, ih]

/-- What an execution settles depends on the executions of its class only. -/
theorem arriving_ofClass : arriving (ofClass runs run.kind.owner) run = arriving runs run := by
  unfold arriving
  cases hkind : run.kind with
  | test owner =>
    dsimp only [TestKind.owner]
    rw [waiting_ofClass]
  | beforeClass owner => rfl
  | afterClass owner =>
    dsimp only [TestKind.owner]
    rw [lastTest?_ofClass]

theorem filter_loneAfter :
    (loneAfter runs).filter (·.kind.owner = owner) = loneAfter (ofClass runs owner) := by
  induction runs using List.reverseRecOn with
  | nil => rfl
  | append_singleton runs run ih =>
    rw [ofClass_snoc, loneAfter_snoc, List.filter_append, ih]
    by_cases howner : run.kind.owner = owner
    · rw [if_pos howner, loneAfter_snoc, howner, lastTest?_ofClass]
      congr 1
      split <;> simp [howner]
    · rw [if_neg howner]
      split <;> simp [howner]

/-! ## The class of an identifier -/

theorem owner_of_lastTest? (h : Classified runs) {id : String}
    (hlast : lastTest? runs owner = some id) : (TestKind.ofId id).owner = owner := by
  induction runs using List.reverseRecOn with
  | nil => simp [lastTest?, previousTest?] at hlast
  | append_singleton runs run ih =>
    rw [lastTest?_snoc] at hlast
    split at hlast
    · next htest =>
      obtain ⟨rfl⟩ := Option.some.inj hlast
      rw [← h.last, htest]
      rfl
    · exact ih h.init hlast

/-- An execution counts for tests of its class only. -/
theorem owner_of_mem_arriving (h : Classified (runs ++ [run])) {c : Credit}
    (hc : c ∈ arriving runs run) : (TestKind.ofId c.test).owner = run.kind.owner := by
  have hself : (TestKind.ofId run.id).owner = run.kind.owner := by rw [h.last]
  unfold arriving at hc
  split at hc
  · rcases List.mem_cons.mp hc with rfl | hc
    · exact hself
    · obtain ⟨hook, -, rfl⟩ := List.mem_map.mp hc
      exact hself
  · cases hc
  · next owner hkind =>
    rcases List.mem_append.mp hc with hc | hc
    · obtain ⟨id, hid, rfl⟩ := List.mem_map.mp hc
      rw [owner_of_lastTest? h.init (Option.mem_toList.mp hid), hkind]
      rfl
    · obtain rfl := List.mem_singleton.mp hc
      exact hself

theorem filter_arrivalCredits (h : Classified runs) (id : String) :
    (arrivalCredits runs).filter (·.test = id) =
      (arrivalCredits (ofClass runs (TestKind.ofId id).owner)).filter (·.test = id) := by
  induction runs using List.reverseRecOn with
  | nil => rfl
  | append_singleton runs run ih =>
    rw [ofClass_snoc, arrivalCredits_snoc, List.filter_append, ih h.init]
    by_cases howner : run.kind.owner = (TestKind.ofId id).owner
    · rw [if_pos howner, arrivalCredits_snoc, List.filter_append, ← howner, arriving_ofClass]
    · have hnone : (arriving runs run).filter (·.test = id) = [] := by
        rw [List.filter_eq_nil_iff]
        intro c hc
        have hclass := owner_of_mem_arriving h hc
        simp only [decide_eq_true_eq]
        rintro rfl
        exact howner hclass.symm
      rw [if_neg howner, hnone, List.append_nil]

theorem filter_loneCredits (h : Classified runs) (id : String) :
    ((loneBefore runs).map loneCredit).filter (·.test = id) =
      ((waiting runs (TestKind.ofId id).owner).map loneCredit).filter (·.test = id) := by
  rw [List.filter_map, List.filter_map, ← filter_loneBefore, List.filter_filter]
  congr 1
  apply List.filter_congr
  intro hook hhook
  obtain ⟨i, hi, -⟩ := mem_loneBefore_iff.mp hhook
  have hkind := h hook (List.mem_of_getElem? hi)
  by_cases hid : hook.id = id
  · simp [loneCredit, hid, hkind]
  · simp [loneCredit, hid]

/-- The credits of an identifier come from the executions of its class. -/
theorem filter_credits (h : Classified runs) (id : String) :
    (credits runs).filter (·.test = id) =
      (credits (ofClass runs (TestKind.ofId id).owner)).filter (·.test = id) := by
  have hclass : Classified (ofClass runs (TestKind.ofId id).owner) := fun run hrun =>
    h run (List.mem_filter.mp hrun).1
  rw [credits, credits, List.filter_append, List.filter_append, filter_arrivalCredits h,
    filter_loneCredits h, filter_loneCredits hclass, waiting_ofClass]

/-! ## Tests and unresolved hooks -/

theorem mem_arrivalIds_iff {id : String} :
    id ∈ arrivalIds runs ↔ ∃ c ∈ arrivalCredits runs, c.test = id := by
  induction runs using List.reverseRecOn with
  | nil => simp [arrivalIds, arrivalCredits]
  | append_singleton runs run ih =>
    have hcredits : (∃ c ∈ arrivalCredits (runs ++ [run]), c.test = id) ↔
        id ∈ arrivalIds runs ∨ ∃ c ∈ arriving runs run, c.test = id := by
      simp only [arrivalCredits_snoc, List.mem_append, or_and_right, exists_or, ih]
    rw [hcredits, arrivalIds_snoc]
    cases hkind : run.kind with
    | test owner =>
      have hbefore : run.isBefore = false := by simp [Execution.isBefore, hkind]
      have harriving : (∃ c ∈ arriving runs run, c.test = id) ↔ id = run.id := by
        simp [arriving, hkind, eq_comm]
      simp only [hbefore, Bool.false_eq_true, if_false, mem_addId, harriving]
    | beforeClass owner =>
      have hbefore : run.isBefore = true := by simp [Execution.isBefore, hkind, TestKind.owner]
      simp [hbefore, arriving, hkind]
    | afterClass owner =>
      have hbefore : run.isBefore = false := by simp [Execution.isBefore, hkind]
      have harriving : (∃ c ∈ arriving runs run, c.test = id) ↔
          lastTest? runs owner = some id ∨ id = run.id := by
        simp [arriving, hkind, or_and_right, exists_or, eq_comm]
      simp only [hbefore, Bool.false_eq_true, if_false, mem_addId, harriving]
      constructor
      · rintro (hmem | heq)
        · exact Or.inl hmem
        · exact Or.inr (Or.inr heq)
      · rintro (hmem | hlast | heq)
        · exact Or.inl hmem
        · exact Or.inl (lastTest?_mem hlast)
        · exact Or.inr heq

/-- An identifier has a logical test if and only if it has a credit. -/
theorem mem_ids_iff_credit {id : String} : id ∈ ids runs ↔ ∃ c ∈ credits runs, c.test = id := by
  have hids : id ∈ ids runs ↔ id ∈ arrivalIds runs ∨ id ∈ (loneBefore runs).map (·.id) := by
    simp only [ids, arrivalIds, List.mem_eraseDups, List.mem_append]
  rw [hids, mem_arrivalIds_iff]
  simp only [credits, List.mem_append, or_and_right, exists_or, List.mem_map, loneCredit]
  simp

theorem tests_perm {first second : List Execution} (hnodup : (ids first).Nodup)
    (hnodup' : (ids second).Nodup)
    (h : ∀ id, (credits first).filter (·.test = id) = (credits second).filter (·.test = id)) :
    (tests first).Perm (tests second) := by
  have hcredits :
      LogicalTest.ofCredits (credits first) = LogicalTest.ofCredits (credits second) := by
    funext id
    rw [LogicalTest.ofCredits, LogicalTest.ofCredits, h id]
  have hids : (ids first).Perm (ids second) := by
    rw [List.perm_ext_iff_of_nodup hnodup hnodup']
    intro id
    have hcredit : ∀ runs, id ∈ ids runs ↔ ∃ c, c ∈ (credits runs).filter (·.test = id) := by
      simp [mem_ids_iff_credit]
    rw [hcredit, hcredit, h id]
  rw [tests, tests, hcredits]
  exact hids.map _

/-- The hooks that stand for themselves are those of each class. -/
theorem unresolved_perm {first second : List Execution}
    (h : ∀ owner, ofClass first owner = ofClass second owner) :
    (unresolved first).Perm (unresolved second) := by
  have hafter : (loneAfter first).Perm (loneAfter second) := by
    refine perm_of_filter_key_eq (fun run : Execution => run.kind.owner) fun owner => ?_
    rw [filter_loneAfter, filter_loneAfter, h owner]
  have hbefore : loneBefore first = loneBefore second := by
    refine eq_of_filter_key_eq (pairwise_loneBefore first) (pairwise_loneBefore second) ?_
    intro owner
    rw [filter_loneBefore, filter_loneBefore, ← waiting_ofClass, h owner, waiting_ofClass]
  rw [unresolved, unresolved, hbefore]
  exact (hafter.append_right _).map _

end Arrivals

namespace MergedTests

def test? (merged : MergedTests) (id : String) : Option LogicalTest :=
  merged.tests.find? (·.id = id)

/-- The same logical tests by identifier, and the same unresolved hooks, in whatever order. -/
structure SameUpToOrder (first second : MergedTests) : Prop where
  test? : ∀ id, first.test? id = second.test? id
  tests : first.tests.Perm second.tests
  unresolved : first.unresolved.Perm second.unresolved

theorem test?_eq_some_iff {merged : MergedTests} (hnodup : (merged.tests.map (·.id)).Nodup)
    {id : String} {test : LogicalTest} :
    merged.test? id = some test ↔ test ∈ merged.tests ∧ test.id = id := by
  constructor
  · intro h
    exact ⟨List.mem_of_find?_eq_some h, by simpa using List.find?_some h⟩
  · rintro ⟨hmem, hid⟩
    cases hfind : merged.test? id with
    | none => exact absurd hid (by simpa using List.find?_eq_none.mp hfind test hmem)
    | some found =>
      have hfound : found.id = id := by simpa using List.find?_some hfind
      exact congrArg some (List.inj_on_of_nodup_map hnodup (List.mem_of_find?_eq_some hfind) hmem
        (hfound.trans hid.symm))

/-- Look-ups do not depend on the order of the tests. -/
theorem test?_eq_of_perm {first second : MergedTests} (hnodup : (first.tests.map (·.id)).Nodup)
    (hperm : first.tests.Perm second.tests) (id : String) :
    first.test? id = second.test? id := by
  have hnodup' : (second.tests.map (·.id)).Nodup := (hperm.map _).nodup_iff.mp hnodup
  apply Option.ext
  intro test
  rw [test?_eq_some_iff hnodup, test?_eq_some_iff hnodup', hperm.mem_iff]

theorem gather_interleaving {first second : List Execution}
    (hfirst : Arrivals.Classified first) (hsecond : Arrivals.Classified second)
    (h : ∀ owner, Arrivals.ofClass first owner = Arrivals.ofClass second owner) :
    SameUpToOrder (gather first) (gather second) := by
  have hnamed : ∀ owner, Arrivals.ofClass (Arrivals.named first) owner =
      Arrivals.ofClass (Arrivals.named second) owner := by
    intro owner
    unfold Arrivals.ofClass at h ⊢
    rw [Arrivals.named, Arrivals.named, List.filter_comm, h owner, List.filter_comm]
  have hfirst' : Arrivals.Classified (Arrivals.named first) := fun run hrun =>
    hfirst run (List.mem_filter.mp hrun).1
  have hsecond' : Arrivals.Classified (Arrivals.named second) := fun run hrun =>
    hsecond run (List.mem_filter.mp hrun).1
  have htests : (gather first).tests.Perm (gather second).tests := by
    have hnodup := nodup_ids_gather first
    have hnodup' := nodup_ids_gather second
    rw [tests_gather, Arrivals.map_id_tests] at hnodup hnodup'
    rw [tests_gather, tests_gather]
    refine Arrivals.tests_perm hnodup hnodup' fun id => ?_
    rw [Arrivals.filter_credits hfirst', Arrivals.filter_credits hsecond', hnamed]
  refine ⟨test?_eq_of_perm (nodup_ids_gather first) htests, htests, ?_⟩
  rw [unresolved_gather, unresolved_gather]
  exact Arrivals.unresolved_perm hnamed

/-- Executions of different classes may arrive interleaved in any way: if every class has the
same executions in the same order, either both orders of arrival need a longer duration than
a clock can show, or they have the same logical tests and the same unresolved hooks. -/
theorem ofExecutions_interleaving {first second : List Execution}
    (hfirst : Arrivals.Classified first) (hsecond : Arrivals.Classified second)
    (h : ∀ owner, Arrivals.ofClass first owner = Arrivals.ofClass second owner) :
    Option.Rel SameUpToOrder (ofExecutions first) (ofExecutions second) := by
  have hsame := gather_interleaving hfirst hsecond h
  have hfits : (gather first).fits = (gather second).fits := hsame.tests.all_eq
  rw [ofExecutions, ofExecutions, hfits]
  split
  · exact Option.Rel.some hsame
  · exact Option.Rel.none

/-- A test of another class may come between a hook and its test, or after both. -/
theorem ofExecutions_interleaving_hook_test :
    let runs := List.map fun id => Execution.ofDump (.ofSession ⟨id, 0, 5⟩)
    let first := runs ["A#beforeClass", "B/t", "A/t", "B#afterClass"]
    let second := runs ["A#beforeClass", "A/t", "B/t", "B#afterClass"]
    Arrivals.Classified first ∧ Arrivals.Classified second ∧
      (∀ owner, Arrivals.ofClass first owner = Arrivals.ofClass second owner) ∧
      Option.Rel SameUpToOrder (ofExecutions first) (ofExecutions second) := by
  intro runs first second
  have hfirst : Arrivals.Classified first := by
    intro run hrun
    obtain ⟨id, -, rfl⟩ := List.mem_map.mp hrun
    rfl
  have hsecond : Arrivals.Classified second := by
    intro run hrun
    obtain ⟨id, -, rfl⟩ := List.mem_map.mp hrun
    rfl
  have hclasses : ∀ owner, Arrivals.ofClass first owner = Arrivals.ofClass second owner := by
    intro owner
    have hb : (Execution.ofDump (.ofSession ⟨"B/t", 0, 5⟩)).kind.owner = "B" := by decide
    have ha : (Execution.ofDump (.ofSession ⟨"A/t", 0, 5⟩)).kind.owner = "A" := by decide
    by_cases howner : owner = "A"
    · subst howner
      simp [first, second, runs, Arrivals.ofClass, List.filter_cons, ha, hb]
    · have hne : "A" ≠ owner := Ne.symm howner
      simp [first, second, runs, Arrivals.ofClass, List.filter_cons, ha, hne]
  exact ⟨hfirst, hsecond, hclasses, ofExecutions_interleaving hfirst hsecond hclasses⟩

end MergedTests

end TestCoverage

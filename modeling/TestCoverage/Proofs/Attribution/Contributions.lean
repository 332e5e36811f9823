import Mathlib
import TestCoverage.Proofs.Attribution.Arrivals
import TestCoverage.Proofs.Probe.Store

/-!
# What the records of a logical test come from

An execution contributes to a logical test if it is the test's own or a hook that is
attributed to it (`Arrivals.Contributes`). These are the executions of the credits of the test
(`Arrivals.exists_credit_iff`), so the store of the test merges theirs.

* `Arrivals.exists_held_of_mem_store`: a hit in the store of a test is one in a record that a
  contributing execution holds.
* `Arrivals.exists_mem_store_of_held`: a hit in such a record is in the store of the test, if
  the records of its class version agree.
-/

namespace TestCoverage

namespace Arrivals

/-- The execution is one of the test itself, or a hook that is attributed to a run of the
test. -/
def Contributes (runs : List Execution) (id : String) (run : Execution) : Prop :=
  ∃ i, runs[i]? = some run ∧
    ((run.id = id ∧ (run.isBefore = true → attributed? runs i = none)) ∨
      ∃ j test, attributed? runs i = some j ∧ runs[j]? = some test ∧ test.id = id)

/-- A contributing execution holds the record. -/
def Held (runs : List Execution) (id : String) (record : ProbeRecord) : Prop :=
  ∃ run, Contributes runs id run ∧ record ∈ run.dump.store.records

variable {runs : List Execution} {id : String} {run : Execution}

theorem isTestAt_of_nextTest? {owner : String} {i j : Nat} (h : nextTest? runs owner i = some j) :
    isTestAt runs owner j = true := by
  have hmem := List.mem_of_head? h
  simp only [List.mem_filter, Bool.and_eq_true] at hmem
  exact hmem.2.2

theorem contributes_of_mem_creditsAt {c : Credit} {i : Nat} (h : c ∈ creditsAt runs i) :
    Contributes runs c.test c.run := by
  unfold creditsAt at h
  cases hrun : runs[i]? with
  | none => simp [hrun] at h
  | some run =>
    rw [hrun] at h
    dsimp only at h
    cases hkind : run.kind with
    | test owner =>
      rw [hkind] at h
      have hbefore : run.isBefore = false := by simp [Execution.isBefore, hkind]
      rcases List.mem_cons.mp h with rfl | h
      · exact ⟨i, hrun, Or.inl ⟨rfl, by simp [hbefore]⟩⟩
      · obtain ⟨hook, hhook, rfl⟩ := List.mem_map.mp h
        obtain ⟨k, hk, -, hattributed⟩ := mem_beforeHooks_iff.mp hhook
        exact ⟨k, hk, Or.inr ⟨i, run, hattributed, hrun, rfl⟩⟩
    | beforeClass owner => simp [hkind] at h
    | afterClass owner =>
      rw [hkind] at h
      have hbefore : run.isBefore = false := by simp [Execution.isBefore, hkind]
      rcases List.mem_append.mp h with h | h
      · obtain ⟨test, htest, rfl⟩ := List.mem_map.mp h
        obtain ⟨j, hattributed, hj⟩ := Option.bind_eq_some_iff.mp (Option.mem_toList.mp htest)
        exact ⟨i, hrun, Or.inr ⟨j, test, hattributed, hj, rfl⟩⟩
      · obtain rfl := List.mem_singleton.mp h
        exact ⟨i, hrun, Or.inl ⟨rfl, by simp [hbefore]⟩⟩

theorem mem_credits_of_mem_creditsAt {c : Credit} {i : Nat} (h : c ∈ creditsAt runs i) :
    c ∈ credits runs := by
  have hi : i < runs.length := by
    by_contra hout
    simp [creditsAt, List.getElem?_eq_none (Nat.not_lt.mp hout)] at h
  exact List.mem_append_left _ (List.mem_flatMap.mpr ⟨i, List.mem_range.mpr hi, h⟩)

/-- The execution's own test credits it, unless it is a hook that waits for another one. -/
theorem exists_own_credit {i : Nat} (hrun : runs[i]? = some run)
    (hlone : run.isBefore = true → attributed? runs i = none) :
    ∃ c ∈ credits runs, c.test = run.id ∧ c.run = run := by
  cases hkind : run.kind with
  | test owner =>
    refine ⟨⟨run.id, run, .whole⟩, mem_credits_of_mem_creditsAt (i := i) ?_, rfl, rfl⟩
    simp [creditsAt, hrun, hkind]
  | beforeClass owner =>
    have hbefore : run.isBefore = true := by simp [Execution.isBefore, hkind, TestKind.owner]
    have hmem := mem_loneBefore_iff.mpr ⟨i, hrun, hbefore, hlone hbefore⟩
    exact ⟨loneCredit run, List.mem_append_right _ (List.mem_map_of_mem hmem), rfl, rfl⟩
  | afterClass owner =>
    refine ⟨⟨run.id, run, .untimed⟩, mem_credits_of_mem_creditsAt (i := i) ?_, rfl, rfl⟩
    simp [creditsAt, hrun, hkind]

theorem exists_hook_credit {test : Execution} {i j : Nat} (hrun : runs[i]? = some run)
    (hattributed : attributed? runs i = some j) (htest : runs[j]? = some test) :
    ∃ c ∈ credits runs, c.test = test.id ∧ c.run = run := by
  cases hkind : run.kind with
  | test owner => simp [attributed?, hrun, hkind] at hattributed
  | beforeClass owner =>
    have hbefore : run.isBefore = true := by simp [Execution.isBefore, hkind, TestKind.owner]
    -- the hook counts where its test is taken
    have hnext := hattributed
    rw [attributed?_of_isBefore hrun hbefore] at hnext
    have htestKind : test.kind = .test run.kind.owner := by
      simpa [isTestAt, htest] using isTestAt_of_nextTest? hnext
    have hmem := mem_beforeHooks_iff.mpr ⟨i, hrun, hbefore, hattributed⟩
    refine ⟨⟨test.id, run, .untimed⟩, mem_credits_of_mem_creditsAt (i := j) ?_, rfl, rfl⟩
    rw [creditsAt, htest]
    dsimp only
    rw [htestKind]
    exact List.mem_cons_of_mem _ (List.mem_map_of_mem hmem)
  | afterClass owner =>
    refine ⟨⟨test.id, run, .records⟩, mem_credits_of_mem_creditsAt (i := i) ?_, rfl, rfl⟩
    simp [creditsAt, hrun, hkind, hattributed, htest]

/-- The executions that a test credits are those that contribute to it. -/
theorem exists_credit_iff :
    (∃ c ∈ credits runs, c.test = id ∧ c.run = run) ↔ Contributes runs id run := by
  constructor
  · rintro ⟨c, hc, rfl, rfl⟩
    rcases List.mem_append.mp hc with hc | hc
    · obtain ⟨i, -, hi⟩ := List.mem_flatMap.mp hc
      exact contributes_of_mem_creditsAt hi
    · obtain ⟨hook, hhook, rfl⟩ := List.mem_map.mp hc
      obtain ⟨i, hi, -, hnone⟩ := mem_loneBefore_iff.mp hhook
      exact ⟨i, hi, Or.inl ⟨rfl, fun _ => hnone⟩⟩
  · rintro ⟨i, hrun, ⟨rfl, hlone⟩ | ⟨j, test, hattributed, htest, rfl⟩⟩
    · exact exists_own_credit hrun hlone
    · exact exists_hook_credit hrun hattributed htest

/-- Every execution is credited to some test. -/
theorem exists_credit_of_mem (h : run ∈ runs) : ∃ c ∈ credits runs, c.run = run := by
  obtain ⟨i, hrun⟩ := List.mem_iff_getElem?.mp h
  cases hattributed : attributed? runs i with
  | none =>
    -- a test, or a hook that stands for itself
    obtain ⟨c, hc, -, hsame⟩ := exists_own_credit hrun fun _ => hattributed
    exact ⟨c, hc, hsame⟩
  | some j =>
    obtain ⟨test, htest⟩ : ∃ test, runs[j]? = some test :=
      ⟨_, List.getElem?_eq_getElem (attributed?_lt hattributed)⟩
    obtain ⟨c, hc, -, hsame⟩ := exists_hook_credit hrun hattributed htest
    exact ⟨c, hc, hsame⟩

theorem run_mem_of_mem_credits {c : Credit} (h : c ∈ credits runs) : c.run ∈ runs := by
  obtain ⟨i, hrun, -⟩ := exists_credit_iff.mp ⟨c, h, rfl, rfl⟩
  exact List.mem_of_getElem? hrun

end Arrivals

/-! ## The store of a test -/

namespace LogicalTest

theorem store_foldl_credit (credits : List Credit) (test : LogicalTest) :
    (credits.foldl credit test).store =
      (credits.map (·.run.dump.store)).foldl (fun store other => (store.merge other).1)
        test.store := by
  induction credits generalizing test with
  | nil => rfl
  | cons c rest ih => exact ih (test.credit c)

/-- The store of a test merges those of its credits. -/
theorem store_ofCredits (credits : List Credit) (id : String) :
    (ofCredits credits id).store =
      ProbeStore.mergeAll ((credits.filter (·.test = id)).map (·.run.dump.store)) :=
  store_foldl_credit _ _

end LogicalTest

namespace Arrivals

variable {runs : List Execution} {id : String}

/-- The records that a test merges are those that are held. -/
theorem heldBy_credits_iff {record : ProbeRecord} :
    ProbeStore.HeldBy (((credits runs).filter (·.test = id)).map (·.run.dump.store)) record ↔
      Held runs id record := by
  simp only [ProbeStore.HeldBy, List.mem_map, List.mem_filter, decide_eq_true_eq, Held,
    ← exists_credit_iff]
  constructor
  · rintro ⟨_, ⟨c, ⟨hc, htest⟩, rfl⟩, hrecord⟩
    exact ⟨c.run, ⟨c, hc, htest, rfl⟩, hrecord⟩
  · rintro ⟨run, ⟨c, hc, htest, rfl⟩, hrecord⟩
    exact ⟨_, ⟨c, ⟨hc, htest⟩, rfl⟩, hrecord⟩

/-- A hit in the store of a test is one in a record that a contributing execution holds. -/
theorem exists_held_of_mem_store {record : ProbeRecord}
    (h : record ∈ (LogicalTest.ofCredits (credits runs) id).store.records) (probe : Nat) :
    ∃ source, Held runs id source ∧ source.id = record.id ∧ source.hits.Agrees record.hits ∧
      (record.hits.Hit probe → source.hits.Hit probe) := by
  rw [LogicalTest.store_ofCredits] at h
  simp only [← heldBy_credits_iff]
  exact ProbeStore.exists_heldBy_of_mem_mergeAll h probe

/-- If the held records of a class version agree, the store of the test has all their hits. -/
theorem exists_mem_store_of_held {source : ProbeRecord} (h : Held runs id source)
    (hagree : ∀ other, Held runs id other → other.id = source.id → other.hits.Agrees source.hits) :
    ∃ record ∈ (LogicalTest.ofCredits (credits runs) id).store.records,
      record.id = source.id ∧ record.hits.Covers source.hits := by
  simp only [← heldBy_credits_iff] at h hagree
  rw [LogicalTest.store_ofCredits]
  exact ProbeStore.exists_mem_mergeAll_of_heldBy h hagree

end Arrivals

end TestCoverage

import Mathlib
import TestCoverage.Proofs.Attribution.Contributions
import TestCoverage.Proofs.Attribution.Durations
import TestCoverage.Proofs.Probe.Merge

/-!
# Executions that are delivered twice

An execution is delivered a second time, right after the first, and others follow
(`Arrivals.Redelivered`). The copy may be a test whose hooks have been folded already, a hook that
waits twice, or one that is lent twice to the last test. In each case the credits are those of
before, with some that come again (`Arrivals.Redelivered.credits`).

Records and outcomes take nothing from a credit that they have taken: a record is covered or
refused as it was, an outcome is no more severe. `Repeats.foldl_eq` is this argument, whatever
comes between the two.

* `Repeats.sameCoverage`: credits that come again change neither.
* `MergedTests.ofExecutions_redelivered`: the logical tests are the same, but for their durations
  and messages.
-/

namespace TestCoverage

/-- The second list is the first one with elements that come again. -/
inductive Repeats {α : Type} : List α → List α → Prop where
  | nil : Repeats [] []
  | snoc {once again : List α} (h : Repeats once again) (x : α) :
      Repeats (once ++ [x]) (again ++ [x])
  | again {once again : List α} (h : Repeats once again) {x : α} (hx : x ∈ once) :
      Repeats once (again ++ [x])

namespace Repeats

variable {α β : Type} {once again : List α}

theorem refl (xs : List α) : Repeats xs xs := by
  induction xs using List.reverseRecOn with
  | nil => exact .nil
  | append_singleton xs x ih => exact ih.snoc x

theorem append {others more : List α} (h : Repeats once again) (hothers : Repeats others more) :
    Repeats (once ++ others) (again ++ more) := by
  induction hothers with
  | nil => simpa using h
  | snoc _ x ih =>
    rw [← List.append_assoc, ← List.append_assoc]
    exact ih.snoc x
  | again _ hx ih =>
    rw [← List.append_assoc]
    exact ih.again (List.mem_append_right once hx)

theorem append_of_mem (h : Repeats once again) {more : List α} (hmore : ∀ x ∈ more, x ∈ once) :
    Repeats once (again ++ more) := by
  induction more using List.reverseRecOn with
  | nil => simpa using h
  | append_singleton more x ih =>
    rw [List.forall_mem_append, List.forall_mem_singleton] at hmore
    rw [← List.append_assoc]
    exact (ih hmore.1).again hmore.2

theorem map (h : Repeats once again) (f : α → β) : Repeats (once.map f) (again.map f) := by
  induction h with
  | nil => exact .nil
  | snoc _ x ih =>
    rw [List.map_append, List.map_append]
    exact ih.snoc (f x)
  | again _ hx ih =>
    rw [List.map_append]
    exact ih.again (List.mem_map_of_mem hx)

theorem filter (h : Repeats once again) (p : α → Bool) :
    Repeats (once.filter p) (again.filter p) := by
  induction h with
  | nil => exact .nil
  | snoc _ x ih =>
    rw [List.filter_append, List.filter_append]
    exact ih.append (refl _)
  | again _ hx ih =>
    rw [List.filter_append]
    apply ih.append_of_mem
    intro y hy
    obtain ⟨hmem, hp⟩ := List.mem_filter.mp hy
    obtain rfl := List.mem_singleton.mp hmem
    exact List.mem_filter.mpr ⟨hx, hp⟩

theorem flatMap {f g : α → List β} (h : ∀ x, Repeats (f x) (g x)) (xs : List α) :
    Repeats (xs.flatMap f) (xs.flatMap g) := by
  induction xs with
  | nil => exact .nil
  | cons x rest ih => exact (h x).append ih

/-- A fold that takes nothing new from what it has taken is not changed by what comes again. -/
theorem foldl_eq {f : β → α → β} (hself : ∀ b x, f (f b x) x = f b x)
    (hkept : ∀ b x y, f b x = b → f (f b y) x = f b y) (h : Repeats once again) (b : β) :
    again.foldl f b = once.foldl f b := by
  have htaken : ∀ (xs : List α), ∀ x ∈ xs, f (xs.foldl f b) x = xs.foldl f b := by
    intro xs
    induction xs using List.reverseRecOn with
    | nil => simp
    | append_singleton xs y ih =>
      intro x hx
      rw [List.foldl_append, List.foldl_cons, List.foldl_nil]
      rcases List.mem_append.mp hx with hx | hx
      · exact hkept _ x y (ih x hx)
      · obtain rfl := List.mem_singleton.mp hx
        exact hself _ x
  induction h with
  | nil => rfl
  | snoc _ x ih => rw [List.foldl_append, List.foldl_append, ih]
  | again _ hx ih =>
    rw [List.foldl_append, ih]
    exact htaken _ _ hx

theorem eraseDups_eq {once again : List String} (h : Repeats once again) :
    again.eraseDups = once.eraseDups := by
  induction h with
  | nil => rfl
  | snoc _ x ih => rw [eraseDups_append_singleton, eraseDups_append_singleton, ih]
  | again _ hx ih =>
    rw [eraseDups_append_singleton, ih]
    exact if_pos (List.mem_eraseDups.mpr hx)

end Repeats

/-! ## Records and outcomes -/

/-- What is covered or refused stays so, whatever is taken in between. -/
theorem Hits.join_join_of_join_eq {first second third : Option Hits}
    (h : join first second = first) :
    join (join first third) second = join first third := by
  cases second with
  | none => exact join_none _
  | some incoming =>
    cases first with
    | none => cases h
    | some hits =>
      obtain ⟨both, hboth, hcovers⟩ := foldl_join_some [third] hits
      rw [List.foldl_cons, List.foldl_nil] at hboth
      rw [hboth]
      by_cases hagrees : hits.Agrees incoming
      · rw [join, if_pos hagrees, Option.some_inj] at h
        have hincoming := union_covers_right hagrees
        rw [h] at hincoming
        exact join_of_covers (hcovers.trans hincoming)
      · rw [join, if_neg]
        intro hagrees'
        exact hagrees (hcovers.1.trans hagrees')

theorem ProbeStore.merge_merge_of_merge_eq {store other third : ProbeStore}
    (h : (store.merge other).1 = store) :
    ((store.merge third).1.merge other).1 = (store.merge third).1 := by
  apply ext_find?
  intro id
  have hid := congrArg (·.find? id) h
  rw [find?_merge] at hid
  rw [find?_merge, find?_merge]
  exact Hits.join_join_of_join_eq hid

/-- Stores that come again merge to nothing new. -/
theorem Repeats.mergeAll_eq {once again : List ProbeStore} (h : Repeats once again) :
    ProbeStore.mergeAll again = ProbeStore.mergeAll once := by
  unfold ProbeStore.mergeAll
  apply h.foldl_eq
  · intro store other
    rw [ProbeStore.merge_again]
  · intro store other third
    exact ProbeStore.merge_merge_of_merge_eq

namespace Outcome

theorem worse_eq_left_iff {a b : Outcome} : a.worse b = a ↔ b.severity ≤ a.severity := by
  cases a <;> cases b <;> decide

end Outcome

theorem Repeats.foldl_worse {once again : List Outcome} (h : Repeats once again)
    (outcome : Outcome) : again.foldl Outcome.worse outcome = once.foldl Outcome.worse outcome := by
  apply h.foldl_eq
  · intro a b
    rw [Outcome.worse_eq_left_iff, Outcome.severity_worse]
    omega
  · intro a b c hab
    rw [Outcome.worse_eq_left_iff] at hab ⊢
    rw [Outcome.severity_worse]
    omega

/-! ## Credits -/

namespace LogicalTest

/-- The outcome of a test is the worst of its credits with a result. -/
theorem outcome_foldl_credit (credits : List Credit) (test : LogicalTest) :
    (credits.foldl credit test).result.outcome =
      ((credits.filter (·.share ≠ .records)).map (·.run.result.outcome)).foldl Outcome.worse
        test.result.outcome := by
  induction credits generalizing test with
  | nil => rfl
  | cons c rest ih =>
    rw [List.foldl_cons, ih]
    cases hshare : c.share <;> simp [credit, hshare, TestResult.absorb]

/-- The tests have the same name, records and outcome. -/
structure SameCoverage (test other : LogicalTest) : Prop where
  id_eq : test.id = other.id
  store_eq : test.store = other.store
  outcome_eq : test.result.outcome = other.result.outcome

theorem SameCoverage.refl (test : LogicalTest) : test.SameCoverage test := ⟨rfl, rfl, rfl⟩

end LogicalTest

/-- Credits that come again give a test neither records nor another outcome. -/
theorem Repeats.sameCoverage {once again : List Credit} (h : Repeats once again) (id : String) :
    (LogicalTest.ofCredits once id).SameCoverage (LogicalTest.ofCredits again id) where
  id_eq := by rw [LogicalTest.id_ofCredits, LogicalTest.id_ofCredits]
  store_eq := by
    rw [LogicalTest.store_ofCredits, LogicalTest.store_ofCredits]
    exact ((h.filter _).map _).mergeAll_eq.symm
  outcome_eq := by
    unfold LogicalTest.ofCredits
    rw [LogicalTest.outcome_foldl_credit, LogicalTest.outcome_foldl_credit]
    exact (((h.filter _).filter _).map _).foldl_worse _ |>.symm

namespace Arrivals

/-! ## A second delivery -/

/-- The second list has a copy of one execution right after it. -/
inductive Redelivered : List Execution → List Execution → Prop where
  | copy (earlier : List Execution) (run : Execution) :
      Redelivered (earlier ++ [run]) (earlier ++ [run] ++ [run])
  | later {once twice : List Execution} (h : Redelivered once twice) (run : Execution) :
      Redelivered (once ++ [run]) (twice ++ [run])

theorem redelivered_append (earlier later : List Execution) (run : Execution) :
    Redelivered (earlier ++ run :: later) (earlier ++ run :: run :: later) := by
  induction later using List.reverseRecOn with
  | nil => simpa using Redelivered.copy earlier run
  | append_singleton later last ih => simpa using ih.later last

namespace Redelivered

variable {once twice : List Execution}

theorem repeats (h : Redelivered once twice) : Repeats once twice := by
  induction h with
  | copy earlier run => exact (Repeats.refl _).again (by simp)
  | later _ run ih => exact ih.snoc run

theorem sublist (h : Redelivered once twice) : once.Sublist twice := by
  induction h with
  | copy earlier run => exact List.sublist_append_left _ _
  | later _ run ih => exact ih.append_right [run]

/-- An execution without an identifier is passed over both times. -/
theorem named (h : Redelivered once twice) :
    named once = named twice ∨ Redelivered (named once) (named twice) := by
  induction h with
  | copy earlier run =>
    rw [named_snoc (earlier ++ [run]), named_snoc earlier]
    split
    · exact .inl (by simp)
    · exact .inr (.copy _ run)
  | later _ run ih =>
    rw [named_snoc, named_snoc]
    rcases ih with ih | ih
    · exact .inl (by rw [ih])
    · split
      · simpa using Or.inr ih
      · exact .inr (ih.later run)

theorem lastTest?_eq (h : Redelivered once twice) (owner : String) :
    lastTest? twice owner = lastTest? once owner := by
  induction h with
  | copy earlier run =>
    rw [lastTest?_snoc, lastTest?_snoc]
    split <;> rfl
  | later _ run ih => rw [lastTest?_snoc, lastTest?_snoc, ih]

/-- The copy of a hook waits behind it until both are folded. -/
theorem waiting (h : Redelivered once twice) (owner : String) :
    Repeats (waiting once owner) (waiting twice owner) := by
  induction h with
  | copy earlier run =>
    rw [@waiting_snoc (earlier ++ [run]), waiting_snoc]
    split
    · exact .nil
    · split
      · exact (Repeats.refl _).again (by simp)
      · exact Repeats.refl _
  | later _ run ih =>
    rw [waiting_snoc, waiting_snoc]
    split
    · exact .nil
    · split
      · exact ih.snoc run
      · exact ih

/-- The copy of an execution settles no credit that the first one has not settled. -/
theorem mem_arriving_of_copy {earlier : List Execution} {run : Execution} {c : Credit}
    (hc : c ∈ arriving (earlier ++ [run]) run) : c ∈ arriving earlier run := by
  unfold arriving at hc ⊢
  cases hkind : run.kind with
  | test owner =>
    -- the hooks that waited were folded into the first one
    rw [hkind] at hc
    dsimp only at hc ⊢
    rw [waiting_snoc, if_pos hkind, List.map_nil, List.mem_singleton] at hc
    rw [hc]
    exact List.mem_cons_self
  | beforeClass owner => simp [hkind] at hc
  | afterClass owner =>
    rw [hkind] at hc
    dsimp only at hc ⊢
    rwa [lastTest?_snoc, if_neg (by simp [hkind])] at hc

theorem arriving (h : Redelivered once twice) (run : Execution) :
    Repeats (arriving once run) (arriving twice run) := by
  unfold Arrivals.arriving
  cases run.kind with
  | test owner => exact (Repeats.refl [_]).append ((h.waiting owner).map _)
  | beforeClass owner => exact .nil
  | afterClass owner =>
    dsimp only
    rw [h.lastTest?_eq]
    exact Repeats.refl _

theorem arrivalCredits (h : Redelivered once twice) :
    Repeats (arrivalCredits once) (arrivalCredits twice) := by
  induction h with
  | copy earlier run =>
    rw [@arrivalCredits_snoc (earlier ++ [run])]
    apply (Repeats.refl _).append_of_mem
    intro c hc
    rw [arrivalCredits_snoc]
    exact List.mem_append_right _ (mem_arriving_of_copy hc)
  | later h run ih =>
    rw [arrivalCredits_snoc, arrivalCredits_snoc]
    exact ih.append (h.arriving run)

theorem loneBefore (h : Redelivered once twice) :
    Repeats (loneBefore once) (loneBefore twice) := by
  let owners := ((twice.map (·.kind.owner)).toFinset.sort (· ≤ ·))
  have hsorted : owners.Pairwise (· < ·) := Finset.sortedLT_sort _ |>.pairwise
  have hall : ∀ runs, (∀ run ∈ runs, run ∈ twice) → ∀ owner ∉ owners,
      Arrivals.waiting runs owner = [] := by
    intro runs hruns owner howner
    rw [List.eq_nil_iff_forall_not_mem]
    intro hook hhook
    apply howner
    obtain ⟨hmem, rfl⟩ : hook ∈ twice ∧ hook.kind.owner = owner := by
      obtain ⟨hbefore, -⟩ := List.mem_filter.mp hhook
      obtain ⟨i, hi, -⟩ := mem_beforeHooks_iff.mp hbefore
      exact ⟨hruns hook (List.mem_of_getElem? hi), owner_of_mem_waiting hhook⟩
    simpa [owners] using ⟨hook, hmem, rfl⟩
  rw [← flatMap_waiting hsorted (hall once fun _ hrun => h.sublist.subset hrun),
    ← flatMap_waiting hsorted (hall twice fun _ hrun => hrun)]
  exact Repeats.flatMap h.waiting owners

theorem credits (h : Redelivered once twice) : Repeats (credits once) (credits twice) :=
  h.arrivalCredits.append (h.loneBefore.map loneCredit)

theorem ids_eq (h : Redelivered once twice) : ids twice = ids once :=
  (((h.repeats.filter _).map _).append (h.loneBefore.map _)).eraseDups_eq

theorem tests (h : Redelivered once twice) :
    List.Forall₂ LogicalTest.SameCoverage (tests once) (tests twice) := by
  unfold Arrivals.tests
  rw [h.ids_eq, List.forall₂_map_left_iff, List.forall₂_map_right_iff, List.forall₂_same]
  intro id _
  exact h.credits.sameCoverage id

/-- A test takes no less time with the copy. -/
theorem fits_runTime (h : Redelivered once twice) {id : String}
    (hfits : (runTime twice id).fits = true) : (runTime once id).fits = true := by
  have hle : (runTime once id).nanos ≤ (runTime twice id).nanos :=
    ((h.sublist.filter _).map _).sum_le_sum fun _ _ => Nat.zero_le _
  simp only [Duration.fits, decide_eq_true_eq] at hfits ⊢
  omega

end Redelivered

end Arrivals

namespace MergedTests

theorem ofExecutions_of_fits {executions : List Execution}
    (h : (gather executions).fits = true) : ofExecutions executions = some (gather executions) :=
  if_pos h

/-- A second delivery of an execution adds no coverage: if no duration is too long for a clock, the
logical tests are the same in the same order, with the same records and outcomes. -/
theorem ofExecutions_redelivered {earlier later : List Execution} {run : Execution}
    {twice : MergedTests} (h : ofExecutions (earlier ++ run :: run :: later) = some twice) :
    ∃ once, ofExecutions (earlier ++ run :: later) = some once ∧
      List.Forall₂ LogicalTest.SameCoverage once.tests twice.tests := by
  have hcopy := Arrivals.redelivered_append earlier later run
  obtain rfl := eq_gather_of_ofExecutions h
  refine ⟨gather (earlier ++ run :: later), ?_, ?_⟩
  · rw [ofExecutions_eq_some_iff] at h ⊢
    intro id hid
    exact hcopy.fits_runTime (h id hid)
  · rw [tests_gather, tests_gather]
    rcases hcopy.named with hnamed | hnamed
    · rw [hnamed, List.forall₂_same]
      exact fun test _ => .refl test
    · exact hnamed.tests

/-- A hook may wait twice for a test that refuses its record. -/
theorem ofExecutions_redelivered_refused_record :
    let run := fun id probes =>
      Execution.ofDump ⟨⟨id, 0, 5⟩, ⟨OrderedMap.empty.set ⟨1⟩ ⟨"A", probes⟩⟩⟩
    let hook := run "A#beforeClass" [true]
    let later := [run "A/t" [true, false], run "A#afterClass" [false, true]]
    ∃ twice, ofExecutions ([] ++ hook :: hook :: later) = some twice ∧
      ∃ once, ofExecutions ([] ++ hook :: later) = some once ∧
        List.Forall₂ LogicalTest.SameCoverage once.tests twice.tests := by
  intro run hook later
  have hfits : (gather ([] ++ hook :: hook :: later)).fits = true := by decide +kernel
  have htwice := ofExecutions_of_fits hfits
  exact ⟨_, htwice, @ofExecutions_redelivered [] later hook _ htwice⟩

end MergedTests

end TestCoverage

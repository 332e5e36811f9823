import Mathlib
import TestCoverage.Proofs.Attribution.Arrivals

/-!
# Gathering executions attributes them by looking ahead and back

What is carried along while executions are gathered is determined by the executions that
arrived (`Attribution.Follows`): the tests by the credits that are settled, the progress of a
class by its waiting hooks and its last test. `Follows.push` is the step and `follows_push_all`
the run. At the end the hooks that still wait are settled class by class, which is the order
of `Arrivals.loneBefore` (`flatMap_waiting`).

`MergedTests.ofExecutions_eq_arrivals` puts this together: gathering one execution after the
other gives the logical tests and unresolved hooks that the attributions say.
-/

namespace TestCoverage

/-! ## Lists in ascending order of a key -/

/-- A list in ascending order of a key is determined by what it holds of each key. -/
theorem eq_of_filter_key_eq {α κ : Type} [LinearOrder κ] {key : α → κ} {first second : List α}
    (hfirst : first.Pairwise fun a b => key a ≤ key b)
    (hsecond : second.Pairwise fun a b => key a ≤ key b)
    (h : ∀ k, first.filter (key · = k) = second.filter (key · = k)) : first = second := by
  have hmem : ∀ a, a ∈ first ↔ a ∈ second := fun a => by
    have ha := congrArg (a ∈ ·) (h (key a))
    simpa using ha
  induction first generalizing second with
  | nil =>
    exact (List.eq_nil_iff_forall_not_mem.mpr fun a ha => by simpa using (hmem a).mpr ha).symm
  | cons a rest ih =>
    cases second with
    | nil => exact absurd ((hmem a).mp List.mem_cons_self) List.not_mem_nil
    | cons b others =>
      obtain ⟨hahead, harest⟩ := List.pairwise_cons.mp hfirst
      obtain ⟨hbhead, hbrest⟩ := List.pairwise_cons.mp hsecond
      -- both heads have the least key, so both are the first of that key
      have hba : key b ≤ key a := by
        rcases List.mem_cons.mp ((hmem a).mp List.mem_cons_self) with heq | ha
        · rw [heq]
        · exact hbhead a ha
      have hab : key a ≤ key b := by
        rcases List.mem_cons.mp ((hmem b).mpr List.mem_cons_self) with heq | hb
        · rw [heq]
        · exact hahead b hb
      have hkey : key b = key a := le_antisymm hba hab
      have hhead := h (key a)
      rw [List.filter_cons, List.filter_cons, if_pos (by simp), if_pos (by simp [hkey])] at hhead
      obtain ⟨rfl, -⟩ := List.cons.inj hhead
      have hrest : ∀ k, rest.filter (key · = k) = others.filter (key · = k) := by
        intro k
        have hk := h k
        rw [List.filter_cons, List.filter_cons] at hk
        split at hk
        · exact (List.cons.inj hk).2
        · exact hk
      have hmemrest : ∀ c, c ∈ rest ↔ c ∈ others := fun c => by
        have hc := congrArg (c ∈ ·) (hrest (key c))
        simpa using hc
      rw [ih harest hbrest hrest hmemrest]

theorem le_of_key_trans {α κ : Type} [LinearOrder κ] (key : α → κ) (a b c : α)
    (hab : decide (key a ≤ key b) = true) (hbc : decide (key b ≤ key c) = true) :
    decide (key a ≤ key c) = true :=
  decide_eq_true (le_trans (of_decide_eq_true hab) (of_decide_eq_true hbc))

theorem le_of_key_total {α κ : Type} [LinearOrder κ] (key : α → κ) (a b : α) :
    (decide (key a ≤ key b) || decide (key b ≤ key a)) = true := by
  simpa using le_total (key a) (key b)

/-- Sorting by a key keeps the order within each key. -/
theorem filter_mergeSort_key {α κ : Type} [LinearOrder κ] (key : α → κ) (xs : List α) (k : κ) :
    (xs.mergeSort fun a b => key a ≤ key b).filter (key · = k) = xs.filter (key · = k) := by
  have hsame : (xs.filter (key · = k)).Pairwise fun a b => key a ≤ key b := by
    refine List.pairwise_of_forall_mem_list fun a ha b hb => ?_
    have hak : key a = k := by simpa using (List.mem_filter.mp ha).2
    have hbk : key b = k := by simpa using (List.mem_filter.mp hb).2
    rw [hak, hbk]
  have hsub : (xs.filter (key · = k)).Sublist (xs.mergeSort fun a b => key a ≤ key b) := by
    refine List.sublist_mergeSort (le_of_key_trans key) (le_of_key_total key) ?_
      List.filter_sublist
    simpa using hsame
  have hsub' := hsub.filter (key · = k)
  rw [List.filter_filter] at hsub'
  simp only [Bool.and_self] at hsub'
  refine (hsub'.eq_of_length ?_).symm
  exact ((List.mergeSort_perm xs _).filter (key · = k)).length_eq.symm

namespace Arrivals

theorem pairwise_loneBefore (runs : List Execution) :
    (loneBefore runs).Pairwise fun a b => a.kind.owner ≤ b.kind.owner := by
  have hsorted := List.pairwise_mergeSort (le_of_key_trans fun run : Execution => run.kind.owner)
    (le_of_key_total fun run : Execution => run.kind.owner) (beforeHooks runs none)
  simpa [loneBefore] using hsorted

theorem map_id_tests (runs : List Execution) : (tests runs).map (·.id) = ids runs := by
  rw [tests, List.map_map]
  simp [Function.comp_def]

theorem filter_loneBefore (runs : List Execution) (owner : String) :
    (loneBefore runs).filter (·.kind.owner = owner) = waiting runs owner :=
  filter_mergeSort_key (fun run : Execution => run.kind.owner) (beforeHooks runs none) owner

theorem filter_waiting_of_ne {runs : List Execution} {owner other : String} (hne : owner ≠ other) :
    (waiting runs owner).filter (·.kind.owner = other) = [] := by
  rw [List.filter_eq_nil_iff]
  intro hook hhook
  simp [owner_of_mem_waiting hhook, hne]

theorem filter_waiting_self {runs : List Execution} {owner : String} :
    (waiting runs owner).filter (·.kind.owner = owner) = waiting runs owner := by
  rw [List.filter_eq_self]
  intro hook hhook
  simp [owner_of_mem_waiting hhook]

/-- Of classes in order, only one has the hooks of a class. -/
theorem flatMap_filter_waiting {runs : List Execution} {owners : List String}
    (hsorted : owners.Pairwise (· < ·)) {owner : String} (howner : owner ∈ owners) :
    (owners.flatMap fun other => (waiting runs other).filter (·.kind.owner = owner)) =
      waiting runs owner := by
  obtain ⟨before, after, rfl⟩ := List.append_of_mem howner
  obtain ⟨-, hafter, hbefore⟩ := List.pairwise_append.mp hsorted
  have hbeforenil :
      (before.flatMap fun other => (waiting runs other).filter (·.kind.owner = owner)) = [] :=
    List.flatMap_eq_nil_iff.mpr fun other hother =>
      filter_waiting_of_ne (ne_of_lt (hbefore other hother _ List.mem_cons_self))
  have hafternil :
      (after.flatMap fun other => (waiting runs other).filter (·.kind.owner = owner)) = [] :=
    List.flatMap_eq_nil_iff.mpr fun other hother =>
      filter_waiting_of_ne (ne_of_gt ((List.pairwise_cons.mp hafter).1 other hother))
  rw [List.flatMap_append, List.flatMap_cons, hbeforenil, hafternil, filter_waiting_self,
    List.nil_append, List.append_nil]

/-- What waits for classes in order, if nothing waits for others, is what has no test. -/
theorem flatMap_waiting {runs : List Execution} {owners : List String}
    (hsorted : owners.Pairwise (· < ·)) (hall : ∀ owner ∉ owners, waiting runs owner = []) :
    owners.flatMap (waiting runs) = loneBefore runs := by
  have hpairwise : (owners.flatMap (waiting runs)).Pairwise fun a b =>
      a.kind.owner ≤ b.kind.owner := by
    rw [List.pairwise_flatMap]
    constructor
    · intro owner _
      refine List.pairwise_of_forall_mem_list fun a ha b hb => ?_
      rw [owner_of_mem_waiting ha, owner_of_mem_waiting hb]
    · refine hsorted.imp fun hlt a ha b hb => ?_
      rw [owner_of_mem_waiting ha, owner_of_mem_waiting hb]
      exact le_of_lt hlt
  refine eq_of_filter_key_eq hpairwise (pairwise_loneBefore runs) fun owner => ?_
  rw [filter_loneBefore, List.filter_flatMap]
  by_cases howner : owner ∈ owners
  · exact flatMap_filter_waiting hsorted howner
  · rw [hall owner howner, List.flatMap_eq_nil_iff]
    intro other hother
    exact filter_waiting_of_ne (ne_of_mem_of_not_mem hother howner)

end Arrivals

namespace Attribution

/-! ## One execution -/

@[simp] theorem progress_set (state : Attribution) (owner other : String)
    (progress : ClassProgress) :
    Attribution.progress { state with classes := state.classes.set owner progress } other =
      if owner = other then progress else state.progress other := by
  unfold Attribution.progress
  rw [OrderedMap.find?_set]
  split <;> rfl

theorem progress_congr {state other : Attribution} (h : state.classes = other.classes) :
    state.progress = other.progress := by
  funext owner
  rw [Attribution.progress, Attribution.progress, h]

/-- What was gathered from some executions. -/
structure Follows (state : Attribution) (runs : List Execution) : Prop where
  tests : state.Shows (Arrivals.arrivalIds runs) (Arrivals.arrivalCredits runs)
  pending : ∀ owner,
    (state.progress owner).pending = (Arrivals.waiting runs owner).map PendingHook.ofRun
  lastTest : ∀ owner,
    (state.progress owner).lastTest =
      (Arrivals.lastTest? runs owner).bind (Arrivals.arrivalIds runs).idxOf?
  unresolved : state.unresolved = (Arrivals.loneAfter runs).map .ofRun

variable {state : Attribution} {runs : List Execution} {run : Execution}

/-- New identifiers do not move the last test of a class. -/
theorem lastTest_addId (runs : List Execution) (owner id : String) :
    (Arrivals.lastTest? runs owner).bind (addId (Arrivals.arrivalIds runs) id).idxOf? =
      (Arrivals.lastTest? runs owner).bind (Arrivals.arrivalIds runs).idxOf? := by
  cases hlast : Arrivals.lastTest? runs owner with
  | none => rfl
  | some last =>
    have hmem := Arrivals.lastTest?_mem hlast
    obtain ⟨position, hposition⟩ :=
      Option.isSome_iff_exists.mp (List.isSome_idxOf?.mpr hmem)
    rw [Option.bind_some, Option.bind_some, hposition, idxOf?_addId hposition]

theorem Follows.pushTest {owner : String} (h : state.Follows runs)
    (hkind : run.kind = .test owner) : (state.pushTest run owner).Follows (runs ++ [run]) := by
  have hbefore : run.isBefore = false := by simp [Execution.isBefore, hkind]
  have hafter : run.isAfter = false := by simp [Execution.isAfter, hkind]
  have hids : Arrivals.arrivalIds (runs ++ [run]) = addId (Arrivals.arrivalIds runs) run.id := by
    simp [Arrivals.arrivalIds_snoc, hbefore]
  have hcredits : Arrivals.arrivalCredits (runs ++ [run]) =
      Arrivals.arrivalCredits runs ++ [⟨run.id, run, .whole⟩] ++
        (Arrivals.waiting runs owner).map fun hook => ⟨run.id, hook, .untimed⟩ := by
    simp [Arrivals.arrivalCredits_snoc, Arrivals.arriving, hkind]
  obtain ⟨hupsert, hposition⟩ := h.tests.upsert (c := ⟨run.id, run, .whole⟩)
    fun test => test.absorbRun_whole run run.id
  have hprogress : ∀ other, (state.pushTest run owner).progress other =
      if owner = other then
        ⟨[], some (state.upsert run.id run.result run.duration run.dump.store).2⟩
      else state.progress other := by
    intro other
    unfold Attribution.pushTest
    rw [progress_congr (classes_change _ _ _), progress_set, progress_congr (classes_upsert ..)]
  refine ⟨?_, ?_, ?_, ?_⟩
  · have hmore : ∀ c ∈ (Arrivals.waiting runs owner).map fun hook =>
        Credit.mk run.id hook .untimed, c.test = run.id := by simp
    have hpending : ((state.upsert run.id run.result run.duration run.dump.store).1.progress
        owner).pending = (Arrivals.waiting runs owner).map PendingHook.ofRun := by
      rw [progress_congr (classes_upsert ..), h.pending owner]
    rw [hids, hcredits]
    unfold Attribution.pushTest
    dsimp only
    rw [hpending]
    refine Shows.change (hupsert.congr rfl rfl) hposition hmore ?_
    exact fun test => test.absorbHooks_untimed (Arrivals.waiting runs owner) run.id
  · intro other
    rw [hprogress other, Arrivals.waiting_snoc, hkind]
    by_cases howner : owner = other
    · simp [howner]
    · simpa [howner] using h.pending other
  · intro other
    rw [hprogress other, Arrivals.lastTest?_snoc, hkind, hids]
    by_cases howner : owner = other
    · simpa [howner] using hposition.symm
    · simpa [howner, lastTest_addId] using h.lastTest other
  · rw [Arrivals.loneAfter_snoc]
    simpa [Attribution.pushTest, hafter] using h.unresolved

theorem Follows.pushBefore {owner : String} (h : state.Follows runs)
    (hkind : run.kind = .beforeClass owner) :
    (state.pushBefore run owner).Follows (runs ++ [run]) := by
  have hbefore : run.isBefore = true := by simp [Execution.isBefore, hkind, TestKind.owner]
  have hafter : run.isAfter = false := by simp [Execution.isAfter, hkind]
  have hids : Arrivals.arrivalIds (runs ++ [run]) = Arrivals.arrivalIds runs := by
    simp [Arrivals.arrivalIds_snoc, hbefore]
  have hcredits : Arrivals.arrivalCredits (runs ++ [run]) = Arrivals.arrivalCredits runs := by
    simp [Arrivals.arrivalCredits_snoc, Arrivals.arriving, hkind]
  refine ⟨?_, ?_, ?_, ?_⟩
  · rw [hids, hcredits]
    exact h.tests.congr rfl rfl
  · intro other
    rw [Attribution.pushBefore, progress_set, Arrivals.waiting_snoc, hkind]
    by_cases howner : owner = other
    · subst howner
      simp [h.pending owner, PendingHook.ofRun]
    · simpa [howner] using h.pending other
  · intro other
    rw [Attribution.pushBefore, progress_set, Arrivals.lastTest?_snoc, hkind, hids]
    by_cases howner : owner = other
    · subst howner
      simpa using h.lastTest owner
    · simpa [howner] using h.lastTest other
  · rw [Arrivals.loneAfter_snoc]
    simpa [Attribution.pushBefore, hafter] using h.unresolved

/-- A hook after tests becomes a test of its own, once its records are lent. -/
theorem Follows.upsertAfter {owner : String} {lent : Attribution} (h : state.Follows runs)
    (hkind : run.kind = .afterClass owner)
    (hlent : lent.Shows (Arrivals.arrivalIds runs) (Arrivals.arrivalCredits runs ++
      (Arrivals.lastTest? runs owner).toList.map fun id => ⟨id, run, .records⟩))
    (hclasses : lent.classes = state.classes)
    (hunresolved : lent.unresolved = (Arrivals.loneAfter (runs ++ [run])).map .ofRun) :
    (lent.upsert run.id run.result .zero run.dump.store).1.Follows (runs ++ [run]) := by
  have hbefore : run.isBefore = false := by simp [Execution.isBefore, hkind]
  have hids : Arrivals.arrivalIds (runs ++ [run]) = addId (Arrivals.arrivalIds runs) run.id := by
    simp [Arrivals.arrivalIds_snoc, hbefore]
  have hprogress : (lent.upsert run.id run.result .zero run.dump.store).1.progress =
      state.progress := by
    rw [progress_congr (classes_upsert ..), progress_congr hclasses]
  refine ⟨?_, ?_, ?_, ?_⟩
  · obtain ⟨hupsert, -⟩ := hlent.upsert (c := ⟨run.id, run, .untimed⟩)
      fun test => test.absorbRun_untimed run run.id
    rw [hids, Arrivals.arrivalCredits_snoc, Arrivals.arriving, hkind]
    simpa using hupsert
  · intro other
    rw [hprogress, Arrivals.waiting_snoc, hkind]
    simpa using h.pending other
  · intro other
    rw [hprogress, Arrivals.lastTest?_snoc, hkind, hids]
    simpa [lastTest_addId] using h.lastTest other
  · rw [unresolved_upsert, hunresolved]

theorem Follows.pushAfter {owner : String} (h : state.Follows runs)
    (hkind : run.kind = .afterClass owner) :
    (state.pushAfter run owner).Follows (runs ++ [run]) := by
  have hafter : run.isAfter = true := by simp [Execution.isAfter, hkind, TestKind.owner]
  have howner : run.kind.owner = owner := by rw [hkind]; rfl
  have hlast := h.lastTest owner
  unfold Attribution.pushAfter
  cases hfound : Arrivals.lastTest? runs owner with
  | none =>
    rw [hfound, Option.bind_none] at hlast
    rw [hlast]
    refine h.upsertAfter hkind ?_ rfl ?_
    · rw [hfound, Option.toList_none, List.map_nil, List.append_nil]
      exact h.tests.congr rfl rfl
    · simp [Arrivals.loneAfter_snoc, hafter, hfound, h.unresolved, UnresolvedHook.ofRun, hkind,
        TestKind.owner]
  | some id =>
    obtain ⟨position, hposition⟩ :=
      Option.isSome_iff_exists.mp (List.isSome_idxOf?.mpr (Arrivals.lastTest?_mem hfound))
    rw [hfound, Option.bind_some, hposition] at hlast
    rw [hlast]
    refine h.upsertAfter hkind ?_ (classes_change ..) ?_
    · have hone : ∀ c ∈ [Credit.mk id run .records], c.test = id := by simp
      rw [hfound]
      exact h.tests.change hposition hone fun test => test.absorbStore_records run id
    · simp [Arrivals.loneAfter_snoc, hafter, howner, hfound, h.unresolved]

/-- The step: one execution more. -/
theorem Follows.push (h : state.Follows runs) (hid : run.id ≠ "") :
    (state.push run).Follows (runs ++ [run]) := by
  unfold Attribution.push
  rw [if_neg hid]
  cases hkind : run.kind with
  | test owner => exact h.pushTest hkind
  | beforeClass owner => exact h.pushBefore hkind
  | afterClass owner => exact h.pushAfter hkind

theorem follows_empty : empty.Follows [] where
  tests := shows_empty
  pending _ := rfl
  lastTest _ := rfl
  unresolved := rfl

/-- The run: what was gathered from any executions. -/
theorem follows_push_all (executions : List Execution) :
    (executions.foldl Attribution.push .empty).Follows (Arrivals.named executions) := by
  induction executions using List.reverseRecOn with
  | nil => exact follows_empty
  | append_singleton executions run ih =>
    rw [List.foldl_append, List.foldl_cons, List.foldl_nil, Arrivals.named_snoc]
    by_cases hid : run.id = ""
    · have hpush : (executions.foldl Attribution.push .empty).push run =
          executions.foldl Attribution.push .empty := if_pos hid
      rw [hpush, if_pos hid, List.append_nil]
      exact ih
    · rw [if_neg hid]
      exact ih.push hid

/-! ## The end -/

theorem Shows.standAlone {ids : List String} {credits : List Credit} {hook : Execution}
    {owner : String} (h : state.Shows ids credits) :
    (standAlone owner state (PendingHook.ofRun hook)).Shows (addId ids hook.id)
      (credits ++ [Arrivals.loneCredit hook]) := by
  have hlone : ∀ lone : Attribution, lone.tests = state.tests →
      lone.positions = state.positions →
      (lone.upsert hook.id hook.result .zero hook.dump.store).1.Shows (addId ids hook.id)
        (credits ++ [Arrivals.loneCredit hook]) := fun lone htests hpositions =>
    (Shows.upsert (c := Arrivals.loneCredit hook) (h.congr htests hpositions) fun test =>
      test.absorbRun_untimed hook hook.id).1
  exact hlone _ rfl rfl

theorem unresolved_standAlone {hook : Execution} {owner : String}
    (hkind : hook.kind = .beforeClass owner) :
    (standAlone owner state (PendingHook.ofRun hook)).unresolved =
      state.unresolved ++ [UnresolvedHook.ofRun hook] := by
  simp [Attribution.standAlone, PendingHook.ofRun, UnresolvedHook.ofRun, hkind]

/-- What was gathered when the given hooks, too, stand for themselves. -/
structure Settles (state : Attribution) (runs hooks : List Execution) : Prop where
  tests : state.Shows
    (((runs.filter (!·.isBefore)).map (·.id) ++ hooks.map (·.id)).eraseDups)
    (Arrivals.arrivalCredits runs ++ hooks.map Arrivals.loneCredit)
  unresolved : state.unresolved = (Arrivals.loneAfter runs ++ hooks).map .ofRun

theorem Settles.snoc {hooks : List Execution} {hook : Execution}
    (h : state.Settles runs hooks) (hbefore : hook.isBefore = true) :
    (standAlone hook.kind.owner state (PendingHook.ofRun hook)).Settles runs (hooks ++ [hook]) := by
  have hkind : hook.kind = .beforeClass hook.kind.owner := of_decide_eq_true hbefore
  constructor
  · rw [List.map_append, List.map_append, ← List.append_assoc, ← List.append_assoc,
      List.map_singleton, List.map_singleton, eraseDups_append_singleton]
    exact h.tests.standAlone
  · rw [unresolved_standAlone hkind, h.unresolved]
    simp

theorem Settles.append {hooks : List Execution} {more : List Execution}
    (h : state.Settles runs hooks) (hbefore : ∀ hook ∈ more, hook.isBefore = true) :
    (more.foldl (fun state hook => standAlone hook.kind.owner state (PendingHook.ofRun hook))
      state).Settles runs (hooks ++ more) := by
  induction more generalizing state hooks with
  | nil => simpa using h
  | cons hook rest ih =>
    have hone := h.snoc (hbefore hook List.mem_cons_self)
    have hrest := ih hone fun other hother => hbefore other (List.mem_cons_of_mem hook hother)
    simpa using hrest

/-- A class of which nothing is known has no hook that waits. -/
theorem Follows.waiting_eq_nil {owner : String} (h : state.Follows runs)
    (hnone : state.classes.find? owner = none) : Arrivals.waiting runs owner = [] := by
  have hpending := h.pending owner
  rw [Attribution.progress, hnone] at hpending
  exact (List.map_eq_nil_iff.mp hpending.symm)

/-- Class by class, the hooks that still wait are those that have no test. -/
theorem Follows.flatMap_waiting_eq (h : state.Follows runs) :
    (state.classes.entries.flatMap fun entry => Arrivals.waiting runs entry.1) =
      Arrivals.loneBefore runs := by
  have hall : ∀ owner ∉ state.classes.keys, Arrivals.waiting runs owner = [] := by
    intro owner howner
    apply h.waiting_eq_nil
    cases hfind : state.classes.find? owner with
    | none => rfl
    | some progress =>
      have hmem := (state.classes.mem_entries_iff owner progress).mpr hfind
      exact absurd (List.mem_map_of_mem hmem) howner
  have hkeys := Arrivals.flatMap_waiting (List.pairwise_map.mpr state.classes.sorted) hall
  rwa [List.flatMap_map] at hkeys

/-- What waits for a class is settled like the hooks that wait for it. -/
theorem Follows.foldl_pending (h : state.Follows runs) {owner : String}
    {progress : ClassProgress} (hmem : (owner, progress) ∈ state.classes.entries)
    (start : Attribution) :
    progress.pending.foldl (standAlone owner) start =
      (Arrivals.waiting runs owner).foldl
        (fun state hook => standAlone hook.kind.owner state (PendingHook.ofRun hook)) start := by
  have hfind := (state.classes.mem_entries_iff owner progress).mp hmem
  have hpending := h.pending owner
  rw [Attribution.progress, hfind, Option.getD_some] at hpending
  rw [hpending, List.foldl_map]
  refine List.foldl_ext _ _ _ fun state hook hhook => ?_
  rw [Arrivals.owner_of_mem_waiting hhook]

theorem Follows.settle (h : state.Follows runs) :
    state.settle.Settles runs (Arrivals.loneBefore runs) := by
  have hstart : Attribution.Settles { state with classes := .empty } runs [] := by
    have htests : Attribution.Shows { state with classes := .empty } (Arrivals.arrivalIds runs)
        (Arrivals.arrivalCredits runs) := h.tests.congr rfl rfl
    constructor
    · simpa [Arrivals.arrivalIds] using htests
    · simpa using h.unresolved
  have hsettle : state.settle = (state.classes.entries.flatMap fun entry =>
      Arrivals.waiting runs entry.1).foldl
        (fun state hook => standAlone hook.kind.owner state (PendingHook.ofRun hook))
        { state with classes := .empty } := by
    rw [Attribution.settle, List.foldl_flatMap]
    exact List.foldl_ext _ _ _ fun start (owner, progress) hmem => h.foldl_pending hmem start
  rw [hsettle, h.flatMap_waiting_eq]
  refine hstart.append fun hook hhook => ?_
  obtain ⟨-, -, hbefore, -⟩ := Arrivals.mem_loneBefore_iff.mp hhook
  exact hbefore

end Attribution

namespace MergedTests

theorem tests_gather (executions : List Execution) :
    (gather executions).tests = Arrivals.tests (Arrivals.named executions) :=
  (Attribution.follows_push_all executions).settle.tests.tests

theorem unresolved_gather (executions : List Execution) :
    (gather executions).unresolved = Arrivals.unresolved (Arrivals.named executions) :=
  (Attribution.follows_push_all executions).settle.unresolved

theorem nodup_ids_gather (executions : List Execution) :
    ((gather executions).tests.map (·.id)).Nodup := by
  have hshows := (Attribution.follows_push_all executions).settle.tests
  rw [tests_gather, Arrivals.map_id_tests]
  exact hshows.nodup

theorem eq_gather_of_ofExecutions {executions : List Execution} {merged : MergedTests}
    (h : ofExecutions executions = some merged) : merged = gather executions := by
  unfold ofExecutions at h
  dsimp only at h
  split at h
  · exact (Option.some.inj h).symm
  · cases h

theorem tests_ofExecutions {executions : List Execution} {merged : MergedTests}
    (h : ofExecutions executions = some merged) :
    merged.tests = Arrivals.tests (Arrivals.named executions) := by
  rw [eq_gather_of_ofExecutions h, tests_gather]

/-- Gathering executions one after the other gives the logical tests and the unresolved hooks
that the attributions say, unless a clock cannot show the duration of one of these tests.
Identifiers are different, and those of the executions that are not attributed to a test. -/
theorem ofExecutions_eq_arrivals (executions : List Execution) :
    ((ofExecutions executions).map fun merged => (merged.tests, merged.unresolved)) =
        (if (Arrivals.tests (Arrivals.named executions)).all (·.duration.fits) then
          some (Arrivals.tests (Arrivals.named executions),
            Arrivals.unresolved (Arrivals.named executions))
        else none) ∧
      ((Arrivals.tests (Arrivals.named executions)).map (·.id)).Nodup ∧
      ∀ id, id ∈ (Arrivals.tests (Arrivals.named executions)).map (·.id) ↔
        ∃ i run, (Arrivals.named executions)[i]? = some run ∧ run.id = id ∧
          (run.isBefore = true → Arrivals.attributed? (Arrivals.named executions) i = none) := by
  refine ⟨?_, ?_, fun id => ?_⟩
  · rw [ofExecutions, fits, tests_gather]
    split
    · rw [Option.map_some, tests_gather, unresolved_gather]
    · rfl
  · exact tests_gather executions ▸ nodup_ids_gather executions
  · rw [Arrivals.map_id_tests]
    exact Arrivals.mem_ids_iff

end MergedTests

end TestCoverage

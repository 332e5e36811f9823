import Mathlib
import TestCoverage.Proofs.Analysis.Omissions
import TestCoverage.Proofs.Reporter

/-!
# What a reporter notes of classes that are left out

A reporter maps a store when it is asked for the lines of the store or for the entry of a test
(`MappingCall`). Whatever the calls, it notes the records that are left out as its mapper does, so
of the classes that are ever left out each is noted once, in the first call that leaves it out and
with the reason that it has there (`Reporter.noted_once`).
-/

namespace TestCoverage

/-- The omission, if it is noted for a class identifier. -/
def ReporterNotice.own? : ReporterNotice → Option Omission
  | .omission cause => if cause.classId?.isSome then some cause else none
  | .attribution _ | .unresolved _ => none

/-- A call that maps a store. -/
inductive MappingCall where
  /-- Asks for the lines of a store. -/
  | coverage (store : ProbeStore)
  /-- Asks for the entry of a test. -/
  | entry (test : LogicalTest)

namespace MappingCall

def store : MappingCall → ProbeStore
  | .coverage store => store
  | .entry test => test.store

/-- The call without the records that have no hit. -/
def pruned : MappingCall → MappingCall
  | .coverage store => .coverage store.pruned
  | .entry test => .entry { test with store := test.store.pruned }

/-- The call leaves the class of a record out. -/
def LeavesOut (catalog : Catalog) (analyzer : Analyzer) (call : MappingCall) (id : ClassId)
    (omission : Omission) : Prop :=
  ∃ record ∈ call.store.records, record.id = id ∧ record.LeftOut catalog analyzer omission

theorem store_pruned (call : MappingCall) : call.pruned.store = call.store.pruned := by
  cases call <;> rfl

end MappingCall

namespace Reporter

/-- The reporter after a call, with what it notes. -/
def answer (reporter : Reporter) : MappingCall → Reporter × List ReporterNotice
  | .coverage store => ((reporter.coverage store).1, (reporter.coverage store).2.1)
  | .entry test => ((reporter.entry test).1, (reporter.entry test).2.1)

/-- The reporter after some calls, with everything it notes. -/
def answerAll (reporter : Reporter) : List MappingCall → Reporter × List ReporterNotice
  | [] => (reporter, [])
  | call :: rest =>
    let (reporter, notices) := reporter.answer call
    let (reporter, more) := answerAll reporter rest
    (reporter, notices ++ more)

/-- Both calls map their store and note what the mapper notes. -/
theorem answer_eq (reporter : Reporter) (call : MappingCall) :
    reporter.answer call = (⟨(reporter.mapper.map call.store).mapper⟩,
      (reporter.mapper.map call.store).omissions.map .omission) := by
  cases call <;> rfl

variable {catalog : Catalog} {analyzer : Analyzer} {reporter : Reporter}

theorem notes_answer (hkeyed : catalog.Keyed) (h : reporter.mapper.Faithful catalog analyzer)
    (call : MappingCall) :
    LineMapper.NotesFirst catalog analyzer call.store.records reporter.mapper.warned
      (reporter.answer call).1.mapper.warned
      ((reporter.answer call).2.filterMap ReporterNotice.own?) := by
  have hown : ((reporter.answer call).2.filterMap ReporterNotice.own?) =
      (reporter.mapper.map call.store).own := by
    rw [answer_eq, List.filterMap_map]
    exact congrFun (List.filterMap_eq_filter ..) _
  rw [hown, answer_eq]
  exact h.notes_map hkeyed call.store

theorem faithful_answer (hkeyed : catalog.Keyed) (h : reporter.mapper.Faithful catalog analyzer)
    (call : MappingCall) : (reporter.answer call).1.mapper.Faithful catalog analyzer := by
  rw [answer_eq]
  exact (h.map hkeyed call.store).1

/-- Some calls note what is left out for the first time along the records of all their stores. -/
theorem notes_answerAll (hkeyed : catalog.Keyed) (calls : List MappingCall)
    (h : reporter.mapper.Faithful catalog analyzer) :
    (reporter.answerAll calls).1.mapper.Faithful catalog analyzer ∧
      LineMapper.NotesFirst catalog analyzer (calls.flatMap (·.store.records))
        reporter.mapper.warned (reporter.answerAll calls).1.mapper.warned
        ((reporter.answerAll calls).2.filterMap ReporterNotice.own?) := by
  induction calls generalizing reporter with
  | nil => exact ⟨h, .refl _⟩
  | cons call rest ih =>
    obtain ⟨hfaithful, hrest⟩ := ih (faithful_answer hkeyed h call)
    refine ⟨hfaithful, ?_⟩
    rw [List.flatMap_cons]
    change LineMapper.NotesFirst _ _ _ _ _ (List.filterMap _ (_ ++ _))
    rw [List.filterMap_append]
    exact (notes_answer hkeyed h call).trans hrest

theorem lacks_calls_iff {calls : List MappingCall} {id : ClassId} :
    LineMapper.Lacks catalog analyzer (calls.flatMap (·.store.records)) id ↔
      ∃ call ∈ calls, ∃ omission, call.LeavesOut catalog analyzer id omission := by
  unfold LineMapper.Lacks MappingCall.LeavesOut
  constructor
  · rintro ⟨record, hrecord, hid, omission, hleft⟩
    obtain ⟨call, hcall, hmem⟩ := List.mem_flatMap.mp hrecord
    exact ⟨call, hcall, omission, record, hmem, hid, hleft⟩
  · rintro ⟨call, hcall, omission, record, hmem, hid, hleft⟩
    exact ⟨record, List.mem_flatMap.mpr ⟨call, hcall, hmem⟩, hid, omission, hleft⟩

/-- A class that is left out proves no line, and is noted under its identifier in the first call
that leaves it out, with the reason it has there. So whatever the calls, the identifiers that are
noted are those ever left out, each of them once. Records without a hit make no difference to a
reporter, to its analyses or to what it notes. -/
theorem noted_once (definitions : List ClassDefinition) (analyzer : Analyzer) :
    let catalog : Catalog := .ofList definitions
    let fresh : Reporter := ⟨.fresh catalog analyzer⟩
    (∀ earlier call id omission,
      (omission ∈ ((fresh.answerAll earlier).1.answer call).2.filterMap ReporterNotice.own? ∧
          omission.classId? = some id ↔
        call.LeavesOut catalog analyzer id omission ∧
          ∀ before ∈ earlier, ∀ other, ¬ before.LeavesOut catalog analyzer id other)) ∧
    (∀ calls,
      let ids := ((fresh.answerAll calls).2.filterMap ReporterNotice.own?).filterMap
        Omission.classId?
      ids.Nodup ∧
        ∀ id, id ∈ ids ↔ ∃ call ∈ calls, ∃ omission, call.LeavesOut catalog analyzer id omission) ∧
    (∀ (record : ProbeRecord) omission path line,
      ¬ (record.LeftOut catalog analyzer omission ∧ record.Proves catalog analyzer path line)) ∧
    ∀ (reporter : Reporter) call, reporter.answer call.pruned = reporter.answer call := by
  intro catalog fresh
  have hkeyed := Catalog.keyed_ofList definitions
  have hfresh : fresh.mapper.Faithful catalog analyzer := LineMapper.faithful_fresh _ _
  refine ⟨fun earlier call id omission => ?_, fun calls => ?_, ?_, fun reporter call => ?_⟩
  · obtain ⟨hfaithful, hearlier⟩ := notes_answerAll hkeyed earlier hfresh
    -- warned about are the identifiers that the earlier calls left out
    have hwarned (id : ClassId) : id ∈ (fresh.answerAll earlier).1.mapper.warned ↔
        ∃ call ∈ earlier, ∃ omission, call.LeavesOut catalog analyzer id omission := by
      rw [hearlier.warned_iff, lacks_calls_iff]
      exact or_iff_right List.not_mem_nil
    rw [(notes_answer hkeyed hfaithful call).mem_iff]
    simp only [hwarned, not_exists, not_and, MappingCall.LeavesOut]
    constructor
    · rintro ⟨⟨record, hrecord, hleft, hnew⟩, hid⟩
      obtain rfl := Option.some.inj (hleft.classId?_eq.symm.trans hid)
      exact ⟨⟨record, hrecord, rfl, hleft⟩, hnew⟩
    · rintro ⟨⟨record, hrecord, rfl, hleft⟩, hnew⟩
      exact ⟨⟨record, hrecord, hleft, hnew⟩, hleft.classId?_eq⟩
  · obtain ⟨-, hnotes⟩ := notes_answerAll hkeyed calls hfresh
    refine ⟨hnotes.nodup, fun id => ?_⟩
    rw [hnotes.mem_ids_iff, lacks_calls_iff]
    exact and_iff_right List.not_mem_nil
  · exact fun record omission path line h => h.1.not_proves path line h.2
  · rw [answer_eq, answer_eq, MappingCall.store_pruned, LineMapper.map_pruned]

/-- A class that is left out for its name first is not noted when its probes are too many later. -/
theorem noted_once_other_name_first :
    let definition : ClassDefinition := ⟨"A", none, ⟨"A.class"⟩, ⟨1⟩, []⟩
    let fresh : Reporter := ⟨.fresh (.ofList [definition]) fun _ => .ok ⟨"A.java", [.empty]⟩⟩
    let renamed : MappingCall := .coverage ⟨⟨[(⟨1⟩, ⟨"B", [true]⟩)], by decide⟩⟩
    let longer : MappingCall :=
      .entry ⟨"A/t", .passed, .zero, ⟨⟨[(⟨1⟩, ⟨"A", [true, true]⟩)], by decide⟩⟩⟩
    .otherName ⟨⟨1⟩, ⟨"B", [true]⟩⟩ definition ∈
        (fresh.answer renamed).2.filterMap ReporterNotice.own? ∧
      .probeCount ⟨⟨1⟩, ⟨"A", [true, true]⟩⟩ 1 ∉
        ((fresh.answerAll [renamed]).1.answer longer).2.filterMap ReporterNotice.own? := by
  intro definition fresh renamed longer
  obtain ⟨hfirst, -⟩ := noted_once [definition] fun _ => .ok ⟨"A.java", [.empty]⟩
  have hleft : renamed.LeavesOut (.ofList [definition]) (fun _ => .ok ⟨"A.java", [.empty]⟩) ⟨1⟩
      (.otherName ⟨⟨1⟩, ⟨"B", [true]⟩⟩ definition) :=
    ⟨_, List.mem_singleton_self _, rfl, .otherName rfl rfl (by decide)⟩
  constructor
  · exact ((hfirst [] renamed ⟨1⟩ _).mpr ⟨hleft, fun _ h => absurd h List.not_mem_nil⟩).1
  · intro hmem
    obtain ⟨-, hnot⟩ := (hfirst [renamed] longer ⟨1⟩ _).mp ⟨hmem, rfl⟩
    exact hnot renamed (List.mem_singleton_self _) _ hleft

end Reporter

end TestCoverage

import Mathlib
import TestCoverage.Proofs.Analysis.LineMapper
import TestCoverage.Proofs.Dump.Payload
import TestCoverage.Proofs.Probe.Merge

/-!
# Each class that is left out is noted once

A record with a hit is left out if the catalog does not have its class, has it under another name,
or if the model of the class has another number of probes (`ProbeRecord.LeftOut`). A mapper notes
this by class identifiers: a record that is left out is noted if no record of its identifier was
noted before (`LineMapper.Faithful.notes_add`, which says all that a record can do). So what a
store adds to the notes are the records left out whose identifiers are new
(`LineMapper.Faithful.notes_map`).

Records without a hit do nothing at all (`LineMapper.map_pruned`).
-/

namespace TestCoverage

/-- The record has a hit, but the catalog or the model of its class does not fit it. -/
inductive ProbeRecord.LeftOut (catalog : Catalog) (analyzer : Analyzer) (record : ProbeRecord) :
    Omission → Prop where
  | unknownClass (hhit : record.hits.any = true) (hunknown : catalog.find? record.id = none) :
      LeftOut catalog analyzer record (.unknownClass record)
  | otherName {definition : ClassDefinition} (hhit : record.hits.any = true)
      (hfound : catalog.find? record.id = some definition)
      (hname : definition.name ≠ record.hits.className) :
      LeftOut catalog analyzer record (.otherName record definition)
  | probeCount {definition : ClassDefinition} {model : ClassModel} (hhit : record.hits.any = true)
      (hfound : catalog.find? record.id = some definition)
      (hname : definition.name = record.hits.className) (hmodel : analyzer definition = .ok model)
      (hcount : model.probes.length ≠ record.hits.probes.length) :
      LeftOut catalog analyzer record (.probeCount record model.probes.length)

/-- The class identifier that an omission is noted for. The fault of an analysis is noted for a
class identity instead. -/
def Omission.classId? : Omission → Option ClassId
  | .unknownClass record | .otherName record _ | .probeCount record _ => some record.id
  | .analysis _ => none

namespace ProbeRecord.LeftOut

variable {catalog : Catalog} {analyzer : Analyzer} {record : ProbeRecord} {omission : Omission}

theorem classId?_eq (h : record.LeftOut catalog analyzer omission) :
    omission.classId? = some record.id := by
  cases h <;> rfl

theorem hit (h : record.LeftOut catalog analyzer omission) : record.hits.any = true := by
  cases h <;> assumption

/-- A record that the catalog fits is left out for its number of probes only. -/
theorem exists_model {definition : ClassDefinition} (h : record.LeftOut catalog analyzer omission)
    (hfound : catalog.find? record.id = some definition)
    (hname : definition.name = record.hits.className) :
    ∃ model, analyzer definition = .ok model ∧
      model.probes.length ≠ record.hits.probes.length := by
  cases h with
  | unknownClass _ hunknown => exact absurd (hfound.symm.trans hunknown) nofun
  | otherName _ hother hne =>
    obtain rfl := Option.some.inj (hfound.symm.trans hother)
    exact absurd hname hne
  | @probeCount other model _ hother _ hmodel hcount =>
    obtain rfl := Option.some.inj (hfound.symm.trans hother)
    exact ⟨model, hmodel, hcount⟩

theorem unique {other : Omission} (h : record.LeftOut catalog analyzer omission)
    (hother : record.LeftOut catalog analyzer other) : omission = other := by
  cases h with
  | unknownClass hhit hunknown => cases hother <;> simp_all
  | otherName hhit hfound hname => cases hother <;> simp_all
  | probeCount hhit hfound hname hmodel hcount => cases hother <;> simp_all

/-- A record that is left out proves no line. -/
theorem not_proves (h : record.LeftOut catalog analyzer omission) (path : String) (line : Line) :
    ¬ record.Proves catalog analyzer path line := by
  cases h with
  | unknownClass hhit hunknown => exact not_proves_of_unknown hunknown
  | otherName hhit hfound hname => exact fun h => hname ((proves_iff_of_found hfound).mp h).1
  | probeCount hhit hfound hname hmodel hcount =>
    exact fun h => hcount ((proves_iff_of_model hfound hname hmodel).mp h).1

end ProbeRecord.LeftOut

namespace LineMapper

/-- The omissions that are noted by class identifiers. -/
def Progress.own (progress : Progress) : List Omission :=
  progress.omissions.filter (·.classId?.isSome)

variable {catalog : Catalog} {analyzer : Analyzer} {progress : Progress} {record : ProbeRecord}

/-! ## One record -/

/-- What a record does to the notes. -/
inductive Notes (catalog : Catalog) (analyzer : Analyzer) (record : ProbeRecord)
    (progress next : Progress) : Prop where
  /-- The record is left out, and is the first one of its identifier. -/
  | noted {omission : Omission} (hleft : record.LeftOut catalog analyzer omission)
      (hnew : record.id ∉ progress.mapper.warned) (hown : next.own = progress.own ++ [omission])
      (hwarned : next.mapper.warned = record.id :: progress.mapper.warned)
  /-- The record is not left out, or its identifier was noted before. -/
  | silent (hold : ∀ omission, record.LeftOut catalog analyzer omission →
        record.id ∈ progress.mapper.warned)
      (hown : next.own = progress.own) (hwarned : next.mapper.warned = progress.mapper.warned)

theorem notes_omit {omission : Omission} {start : Progress}
    (hleft : record.LeftOut catalog analyzer omission) (hown : start.own = progress.own)
    (hwarned : start.mapper.warned = progress.mapper.warned) :
    Notes catalog analyzer record progress (start.omit record.id omission) := by
  unfold Progress.omit
  rw [hwarned]
  split
  · next hold => exact .silent (fun _ _ => List.contains_iff_mem.mp hold) hown hwarned
  · next hnew =>
    refine .noted hleft (fun hmem => hnew (List.contains_iff_mem.mpr hmem)) ?_ rfl
    have hone : [omission].filter (·.classId?.isSome) = [omission] := by
      simp [hleft.classId?_eq]
    change (start.omissions ++ [omission]).filter _ = _
    rw [List.filter_append, hone]
    exact congrArg (· ++ [omission]) hown

/-- Asking for a model notes nothing by class identifiers. -/
theorem own_modelFor (progress : Progress) (definition : ClassDefinition) :
    (progress.modelFor definition).1.own = progress.own ∧
      (progress.modelFor definition).1.mapper.warned = progress.mapper.warned := by
  have hnone (faults : List AnalysisFault) :
      (faults.map Omission.analysis).filter (·.classId?.isSome) = [] := by
    simp [Omission.classId?]
  refine ⟨?_, rfl⟩
  change (progress.omissions ++ List.map Omission.analysis _).filter _ = _
  rw [List.filter_append, hnone]
  exact List.append_nil _

/-- The step: a record is noted if it is left out and the first one of its identifier. -/
theorem Faithful.notes_add (h : progress.mapper.Faithful catalog analyzer)
    (hkeyed : catalog.Keyed) (record : ProbeRecord) :
    Notes catalog analyzer record progress (progress.add record) := by
  unfold Progress.add
  rw [h.catalog_eq]
  cases hhit : record.hits.any with
  | false =>
    refine .silent (fun omission hleft => ?_) rfl rfl
    exact absurd (hhit.symm.trans hleft.hit) Bool.false_ne_true
  | true =>
    rw [Bool.not_true, if_neg Bool.false_ne_true]
    cases hfound : catalog.find? record.id with
    | none => exact notes_omit (.unknownClass hhit hfound) rfl rfl
    | some definition =>
      dsimp only
      split
      · next hname => exact notes_omit (.otherName hhit hfound hname) rfl rfl
      · next hname =>
        have hid := hkeyed record.id definition hfound
        obtain ⟨-, -, houtcome⟩ := h.modelFor (hid.symm ▸ hfound)
        obtain ⟨hown, hwarned⟩ := own_modelFor progress definition
        generalize progress.modelFor definition = answer at houtcome hown hwarned
        obtain ⟨next, outcome⟩ := answer
        dsimp only at houtcome hown hwarned ⊢
        cases outcome with
        | error fault =>
          refine .silent (fun omission hleft => ?_) hown hwarned
          -- no count of probes is wrong without a model
          obtain ⟨model, hmodel, -⟩ := hleft.exists_model hfound (not_not.mp hname)
          rw [← analyse_eq_ok_iff, ← houtcome] at hmodel
          cases hmodel
        | ok model =>
          have hmodel := analyse_eq_ok_iff.mp houtcome.symm
          dsimp only
          split
          · next hcount =>
            exact notes_omit (.probeCount hhit hfound (not_not.mp hname) hmodel hcount) hown hwarned
          · next hcount =>
            refine .silent (fun omission hleft => ?_) hown hwarned
            obtain ⟨other, hother, hne⟩ := hleft.exists_model hfound (not_not.mp hname)
            obtain rfl := Except.ok.inj (hmodel.symm.trans hother)
            exact absurd hne hcount

/-! ## Many records -/

/-- A record of this identifier is left out. -/
def Lacks (catalog : Catalog) (analyzer : Analyzer) (records : List ProbeRecord) (id : ClassId) :
    Prop :=
  ∃ record ∈ records, record.id = id ∧ ∃ omission, record.LeftOut catalog analyzer omission

theorem lacks_append_iff {first second : List ProbeRecord} {id : ClassId} :
    Lacks catalog analyzer (first ++ second) id ↔
      Lacks catalog analyzer first id ∨ Lacks catalog analyzer second id := by
  simp only [Lacks, List.mem_append, or_and_right, exists_or]

theorem not_lacks_nil {id : ClassId} : ¬ Lacks catalog analyzer [] id := by
  rintro ⟨_, hmem, -⟩
  cases hmem

/-- Of records that follow upon the identifiers warned about, those are noted that are the first to
be left out under their identifiers. -/
structure NotesFirst (catalog : Catalog) (analyzer : Analyzer) (records : List ProbeRecord)
    (warned next : List ClassId) (noted : List Omission) : Prop where
  warned_iff : ∀ id, id ∈ next ↔ id ∈ warned ∨ Lacks catalog analyzer records id
  mem_ids_iff : ∀ id, id ∈ noted.filterMap Omission.classId? ↔
    id ∉ warned ∧ Lacks catalog analyzer records id
  nodup : (noted.filterMap Omission.classId?).Nodup
  first : ∀ omission ∈ noted, ∃ front record back, records = front ++ record :: back ∧
    record.LeftOut catalog analyzer omission ∧ ¬ Lacks catalog analyzer front record.id

namespace NotesFirst

variable {first second : List ProbeRecord} {warned next last : List ClassId}
  {noted more : List Omission}

theorem refl (warned : List ClassId) : NotesFirst catalog analyzer [] warned warned [] where
  warned_iff _ := (or_iff_left not_lacks_nil).symm
  mem_ids_iff _ := iff_of_false List.not_mem_nil fun h => not_lacks_nil h.2
  nodup := List.nodup_nil
  first _ h := absurd h List.not_mem_nil

/-- Records after other records. -/
theorem trans (h : NotesFirst catalog analyzer first warned next noted)
    (hmore : NotesFirst catalog analyzer second next last more) :
    NotesFirst catalog analyzer (first ++ second) warned last (noted ++ more) where
  warned_iff id := by rw [hmore.warned_iff, h.warned_iff, or_assoc, lacks_append_iff]
  mem_ids_iff id := by
    rw [List.filterMap_append, List.mem_append, h.mem_ids_iff, hmore.mem_ids_iff, h.warned_iff,
      lacks_append_iff]
    tauto
  nodup := by
    rw [List.filterMap_append]
    refine List.nodup_append.mpr ⟨h.nodup, hmore.nodup, ?_⟩
    -- what is noted first is warned about when the second records come
    rintro id hfirst _ hsecond rfl
    have hlacks := ((h.mem_ids_iff id).mp hfirst).2
    exact ((hmore.mem_ids_iff id).mp hsecond).1 ((h.warned_iff id).mpr (Or.inr hlacks))
  first omission hmem := by
    rcases List.mem_append.mp hmem with hmem | hmem
    · obtain ⟨front, record, back, rfl, hleft, hnot⟩ := h.first omission hmem
      exact ⟨front, record, back ++ second, by simp, hleft, hnot⟩
    · obtain ⟨front, record, back, hsplit, hleft, hnot⟩ := hmore.first omission hmem
      have hid : record.id ∈ more.filterMap Omission.classId? :=
        List.mem_filterMap.mpr ⟨omission, hmem, hleft.classId?_eq⟩
      have hnew := ((hmore.mem_ids_iff record.id).mp hid).1
      refine ⟨first ++ front, record, back, by rw [hsplit, List.append_assoc], hleft, ?_⟩
      rw [lacks_append_iff]
      rintro (hlacks | hlacks)
      · exact hnew ((h.warned_iff record.id).mpr (Or.inr hlacks))
      · exact hnot hlacks

end NotesFirst

theorem Notes.notesFirst {next : Progress} (h : Notes catalog analyzer record progress next) :
    ∃ noted, next.own = progress.own ++ noted ∧
      NotesFirst catalog analyzer [record] progress.mapper.warned next.mapper.warned noted := by
  have hone (id : ClassId) : Lacks catalog analyzer [record] id ↔
      record.id = id ∧ ∃ omission, record.LeftOut catalog analyzer omission := by
    simp [Lacks]
  cases h with
  | @noted omission hleft hnew hown hwarned =>
    have hids : [omission].filterMap Omission.classId? = [record.id] := by
      simp [hleft.classId?_eq]
    have hleftOut : ∃ omission, record.LeftOut catalog analyzer omission := ⟨omission, hleft⟩
    refine ⟨[omission], hown, fun id => ?_, fun id => ?_, ?_, fun other hother => ?_⟩
    · rw [hwarned, hone, List.mem_cons, and_iff_left hleftOut, or_comm, eq_comm]
    · rw [hids, hone, List.mem_singleton, and_iff_left hleftOut]
      constructor
      · rintro rfl
        exact ⟨hnew, rfl⟩
      · exact fun h => h.2.symm
    · rw [hids]
      exact List.nodup_singleton _
    · obtain rfl := List.mem_singleton.mp hother
      exact ⟨[], record, [], rfl, hleft, not_lacks_nil⟩
  | silent hold hown hwarned =>
    have hsame (id : ClassId) (h : Lacks catalog analyzer [record] id) :
        id ∈ progress.mapper.warned := by
      obtain ⟨rfl, omission, hleft⟩ := (hone id).mp h
      exact hold omission hleft
    refine ⟨[], by rw [hown, List.append_nil], fun id => ?_, fun id => ?_, List.nodup_nil,
      fun _ h => absurd h List.not_mem_nil⟩
    · rw [hwarned, or_iff_left_of_imp (hsame id)]
    · exact iff_of_false List.not_mem_nil fun h => h.1 (hsame id h.2)

/-- The run: what records add to the notes. -/
theorem Faithful.notes_foldl (hkeyed : catalog.Keyed) (records : List ProbeRecord)
    (h : progress.mapper.Faithful catalog analyzer) :
    ∃ noted, (records.foldl Progress.add progress).own = progress.own ++ noted ∧
      NotesFirst catalog analyzer records progress.mapper.warned
        (records.foldl Progress.add progress).mapper.warned noted := by
  induction records generalizing progress with
  | nil => exact ⟨[], (List.append_nil _).symm, .refl _⟩
  | cons record rest ih =>
    obtain ⟨noted, hown, hnotes⟩ := (h.notes_add hkeyed record).notesFirst
    obtain ⟨more, hownMore, hnotesMore⟩ := ih (h.add hkeyed record).faithful
    refine ⟨noted ++ more, ?_, hnotes.trans hnotesMore⟩
    rw [List.foldl_cons, hownMore, hown, List.append_assoc]

/-- What a store adds to the notes. -/
theorem Faithful.notes_map {mapper : LineMapper} (h : mapper.Faithful catalog analyzer)
    (hkeyed : catalog.Keyed) (store : ProbeStore) :
    NotesFirst catalog analyzer store.records mapper.warned (mapper.map store).mapper.warned
      (mapper.map store).own := by
  have hstart : (⟨mapper, .empty, []⟩ : Progress).mapper.Faithful catalog analyzer := h
  obtain ⟨noted, hown, hnotes⟩ := hstart.notes_foldl hkeyed store.records
  have hempty : (⟨mapper, .empty, []⟩ : Progress).own = [] := rfl
  rw [hempty, List.nil_append] at hown
  rw [LineMapper.map, hown]
  exact hnotes

/-- A store has one record for an identifier, so each record that is left out is noted unless its
identifier is warned about. -/
theorem NotesFirst.mem_iff {store : ProbeStore} {warned next : List ClassId} {noted : List Omission}
    (h : NotesFirst catalog analyzer store.records warned next noted) (omission : Omission) :
    omission ∈ noted ↔ ∃ record ∈ store.records, record.LeftOut catalog analyzer omission ∧
      record.id ∉ warned := by
  have hnoted {other : Omission} (hmem : other ∈ noted) : ∃ record ∈ store.records,
      record.LeftOut catalog analyzer other ∧ record.id ∉ warned := by
    obtain ⟨front, record, back, hsplit, hleft, -⟩ := h.first other hmem
    have hid : record.id ∈ noted.filterMap Omission.classId? :=
      List.mem_filterMap.mpr ⟨other, hmem, hleft.classId?_eq⟩
    exact ⟨record, by simp [hsplit], hleft, ((h.mem_ids_iff record.id).mp hid).1⟩
  refine ⟨hnoted, ?_⟩
  rintro ⟨record, hrecord, hleft, hnew⟩
  obtain ⟨other, hother, hid⟩ := List.mem_filterMap.mp
    ((h.mem_ids_iff record.id).mpr ⟨hnew, record, hrecord, rfl, omission, hleft⟩)
  obtain ⟨source, hsource, hleftSource, -⟩ := hnoted hother
  have hsame : source = record := by
    have hsourceId := Option.some.inj (hleftSource.classId?_eq.symm.trans hid)
    have hfind := ProbeStore.mem_records_iff.mp hsource
    rw [hsourceId, ProbeStore.mem_records_iff.mp hrecord] at hfind
    exact congrArg₂ ProbeRecord.mk hsourceId (Option.some.inj hfind).symm
  rw [hsame] at hleftSource
  exact hleft.unique hleftSource ▸ hother

/-! ## Records without a hit -/

/-- Records without a hit do nothing. -/
theorem map_pruned (mapper : LineMapper) (store : ProbeStore) :
    mapper.map store.pruned = mapper.map store := by
  unfold map
  rw [ProbeStore.records_pruned, List.foldl_filter]
  refine List.foldl_ext _ _ _ fun progress record _ => ?_
  cases hhit : record.hits.any with
  | false =>
    unfold Progress.add
    rw [hhit]
    rfl
  | true => rfl

end LineMapper

end TestCoverage

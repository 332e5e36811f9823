import Mathlib
import TestCoverage.Analysis.LineMapper
import TestCoverage.Proofs.Lines.SourceLines
import TestCoverage.Proofs.Probe.Store

/-!
# Mapping is exact and has no memory

A record proves a line of a file executed by itself, without what was mapped before
(`ProbeRecord.Proves`). A mapper remembers only what its analyzer says
(`LineMapper.Faithful`), mapping keeps it so, and the lines of a store are those that one of
its records proves (`LineMapper.Faithful.map`). So all faithful mappers give the same coverage
(`LineMapper.Faithful.coverage_eq`).
-/

namespace TestCoverage

namespace Catalog

/-- Every definition is found under its own identifier. -/
def Keyed (catalog : Catalog) : Prop :=
  ∀ id definition, catalog.find? id = some definition → definition.id = id

theorem Keyed.insert {catalog : Catalog} (h : catalog.Keyed) (definition : ClassDefinition) :
    (catalog.insert definition).Keyed := by
  intro id found hfound
  have hset : (catalog.insert definition).find? id =
      if definition.id = id then some definition else catalog.find? id :=
    OrderedMap.find?_set catalog.byId definition.id id definition
  rw [hset] at hfound
  split at hfound
  · next hid =>
    obtain ⟨rfl⟩ := Option.some.inj hfound
    exact hid
  · exact h id found hfound

theorem keyed_ofList (definitions : List ClassDefinition) : (ofList definitions).Keyed := by
  have hempty : empty.Keyed := fun _ _ h => by cases h
  unfold ofList
  generalize empty = catalog at hempty
  induction definitions generalizing catalog with
  | nil => exact hempty
  | cons definition rest ih => exact ih _ (hempty.insert definition)

end Catalog

namespace ClassModel

theorem mem_coveredLines_iff {model : ClassModel} {hits : List Bool} {line : Line} :
    line ∈ model.coveredLines hits ↔
      ∃ (probe : Nat) (lines : LineSet), hits[probe]? = some true ∧
        model.probes[probe]? = some lines ∧ lines.contains line = true := by
  unfold coveredLines
  rw [List.mem_flatMap]
  constructor
  · rintro ⟨⟨hit, lines⟩, hpair, hline⟩
    obtain ⟨probe, hprobe⟩ := List.mem_iff_getElem?.mp hpair
    obtain ⟨hhit, hlines⟩ := List.getElem?_zip_eq_some.mp hprobe
    cases hit with
    | false => simp at hline
    | true => exact ⟨probe, lines, hhit, hlines, (lines.mem_toList_iff line).mp hline⟩
  · rintro ⟨probe, lines, hhit, hlines, hline⟩
    have hprobe : (List.zip hits model.probes)[probe]? = some (true, lines) :=
      List.getElem?_zip_eq_some.mpr ⟨hhit, hlines⟩
    exact ⟨(true, lines), List.mem_iff_getElem?.mpr ⟨probe, hprobe⟩,
      (lines.mem_toList_iff line).mpr hline⟩

end ClassModel

/-- The record proves the line of the file executed: the catalog has its class under its name,
the class has a model with as many probes as the record, and the line is one of a probe that
was hit. -/
def ProbeRecord.Proves (catalog : Catalog) (analyzer : Analyzer) (record : ProbeRecord)
    (path : String) (line : Line) : Prop :=
  ∃ definition model probe lines,
    catalog.find? record.id = some definition ∧ definition.name = record.hits.className ∧
    analyzer definition = .ok model ∧ model.probes.length = record.hits.probes.length ∧
    model.sourcePath = path ∧ record.hits.Hit probe ∧ model.probes[probe]? = some lines ∧
    lines.contains line = true

namespace ProbeRecord

variable {catalog : Catalog} {analyzer : Analyzer} {record : ProbeRecord} {path : String}
  {line : Line}

theorem Proves.any (h : record.Proves catalog analyzer path line) : record.hits.any = true := by
  obtain ⟨-, -, probe, -, -, -, -, -, -, hhit, -⟩ := h
  exact List.any_eq_true.mpr ⟨true, List.mem_iff_getElem?.mpr ⟨probe, hhit⟩, rfl⟩

/-- What a record proves by one of its hits is proved by every record of the class version that
agrees with it and has that hit. -/
theorem Proves.exists_hit (h : record.Proves catalog analyzer path line) :
    ∃ probe, record.hits.Hit probe ∧ ∀ other : ProbeRecord, other.id = record.id →
      other.hits.Agrees record.hits → other.hits.Hit probe →
        other.Proves catalog analyzer path line := by
  obtain ⟨definition, model, probe, lines, hfound, hname, hmodel, hcount, hpath, hhit, hline⟩ := h
  refine ⟨probe, hhit, fun other hid hagrees hother => ?_⟩
  exact ⟨definition, model, probe, lines, hid ▸ hfound, hname.trans hagrees.1.symm, hmodel,
    hcount.trans hagrees.2.symm, hpath, hother, hline⟩

theorem not_proves_of_unknown (h : catalog.find? record.id = none) :
    ¬ record.Proves catalog analyzer path line := by
  rintro ⟨definition, -, -, -, hfound, -⟩
  rw [h] at hfound
  cases hfound

theorem proves_iff_of_found {definition : ClassDefinition}
    (h : catalog.find? record.id = some definition) :
    record.Proves catalog analyzer path line ↔
      definition.name = record.hits.className ∧
        ∃ model, analyzer definition = .ok model ∧
          model.probes.length = record.hits.probes.length ∧ model.sourcePath = path ∧
          line ∈ model.coveredLines record.hits.probes := by
  simp only [ClassModel.mem_coveredLines_iff]
  constructor
  · rintro ⟨found, model, probe, lines, hfound, hname, hmodel, hcount, hpath, hhit⟩
    obtain ⟨rfl⟩ := Option.some.inj (h.symm.trans hfound)
    exact ⟨hname, model, hmodel, hcount, hpath, probe, lines, hhit⟩
  · rintro ⟨hname, model, hmodel, hcount, hpath, probe, lines, hhit⟩
    exact ⟨definition, model, probe, lines, h, hname, hmodel, hcount, hpath, hhit⟩

theorem proves_iff_of_model {definition : ClassDefinition} {model : ClassModel}
    (hfound : catalog.find? record.id = some definition)
    (hname : definition.name = record.hits.className) (hmodel : analyzer definition = .ok model) :
    record.Proves catalog analyzer path line ↔
      model.probes.length = record.hits.probes.length ∧ model.sourcePath = path ∧
        line ∈ model.coveredLines record.hits.probes := by
  rw [proves_iff_of_found hfound]
  constructor
  · rintro ⟨-, other, hother, hproves⟩
    obtain ⟨rfl⟩ := Except.ok.inj (hmodel.symm.trans hother)
    exact hproves
  · exact fun hproves => ⟨hname, model, hmodel, hproves⟩

end ProbeRecord

namespace ProbeStore

variable {catalog : Catalog} {analyzer : Analyzer} {path : String} {line : Line}

/-- A record of the store proves the line of the file executed. -/
def Proves (catalog : Catalog) (analyzer : Analyzer) (store : ProbeStore) (path : String)
    (line : Line) : Prop :=
  ∃ record ∈ store.records, record.Proves catalog analyzer path line

/-- Merged stores prove together what each of them proves. -/
theorem proves_mergeAll_iff {stores : List ProbeStore} (h : Coherent stores) :
    (mergeAll stores).Proves catalog analyzer path line ↔
      ∃ store ∈ stores, store.Proves catalog analyzer path line := by
  constructor
  · rintro ⟨record, hrecord, hproves⟩
    obtain ⟨probe, hhit, hother⟩ := hproves.exists_hit
    obtain ⟨source, ⟨store, hstore, hsource⟩, hid, hagrees, hsourceHit⟩ :=
      exists_heldBy_of_mem_mergeAll hrecord probe
    exact ⟨store, hstore, source, hsource, hother source hid hagrees (hsourceHit hhit)⟩
  · rintro ⟨store, hstore, source, hsource, hproves⟩
    obtain ⟨probe, hhit, hother⟩ := hproves.exists_hit
    have hheld : HeldBy stores source := ⟨store, hstore, hsource⟩
    obtain ⟨record, hrecord, hid, hagrees, hcovers⟩ := exists_mem_mergeAll_of_heldBy hheld
      fun other hotherHeld hsame => h other source hotherHeld hheld hsame
    exact ⟨record, hrecord, hother record hid hagrees.symm (hcovers probe hhit)⟩

end ProbeStore

namespace LineMapper

/-- The mapper knows this catalog and this analyzer, and remembers of the classes of the
catalog only what the analyzer says. -/
structure Faithful (catalog : Catalog) (analyzer : Analyzer) (mapper : LineMapper) : Prop where
  catalog_eq : mapper.catalog = catalog
  analyzer_eq : mapper.analyzer = analyzer
  memo : ∀ definition outcome, catalog.find? definition.id = some definition →
    mapper.memo.find? definition.identity = some outcome →
      outcome = AnalysisMemo.analyse analyzer definition

theorem faithful_fresh (catalog : Catalog) (analyzer : Analyzer) :
    (fresh catalog analyzer).Faithful catalog analyzer :=
  ⟨rfl, rfl, fun _ _ _ h => by cases h⟩

variable {catalog : Catalog} {analyzer : Analyzer} {progress : Progress}

theorem Faithful.omit (h : progress.mapper.Faithful catalog analyzer) (id : ClassId)
    (omission : Omission) :
    (progress.omit id omission).mapper.Faithful catalog analyzer ∧
      (progress.omit id omission).coverage = progress.coverage := by
  unfold Progress.omit
  split
  · exact ⟨h, rfl⟩
  · exact ⟨⟨h.catalog_eq, h.analyzer_eq, h.memo⟩, rfl⟩

theorem find?_cons (identity other : ClassIdentity) (outcome : Except AnalysisFault ClassModel)
    (memo : AnalysisMemo) (runs : Nat) :
    AnalysisMemo.find? ⟨(identity, outcome) :: memo.known, runs⟩ other =
      if identity = other then some outcome else memo.find? other := by
  unfold AnalysisMemo.find?
  rw [List.find?_cons]
  by_cases heq : identity = other
  · simp [heq]
  · have hne : (identity == other) = false := by simpa using heq
    simp [heq, hne]

/-- The model of a class is what the analyzer says, from the memo or not. -/
theorem Faithful.modelFor (h : progress.mapper.Faithful catalog analyzer)
    {definition : ClassDefinition} (hfound : catalog.find? definition.id = some definition) :
    (progress.modelFor definition).1.mapper.Faithful catalog analyzer ∧
      (progress.modelFor definition).1.coverage = progress.coverage ∧
      (progress.modelFor definition).2 = AnalysisMemo.analyse analyzer definition := by
  unfold Progress.modelFor AnalysisMemo.modelFor
  cases hknown : progress.mapper.memo.find? definition.identity with
  | some outcome =>
    exact ⟨⟨h.catalog_eq, h.analyzer_eq, h.memo⟩, rfl, h.memo definition outcome hfound hknown⟩
  | none =>
    refine ⟨⟨h.catalog_eq, h.analyzer_eq, ?_⟩, rfl, by simp only [h.analyzer_eq]⟩
    intro other outcome hother hmemo
    dsimp only at hmemo
    rw [find?_cons] at hmemo
    split at hmemo
    · next hidentity =>
      have hid : definition.id = other.id := congrArg ClassIdentity.id hidentity
      -- the catalog has one definition for the identifier
      have hsame : definition = other := by
        rw [hid, hother] at hfound
        exact (Option.some.inj hfound).symm
      rw [← Option.some.inj hmemo, hsame, h.analyzer_eq]
    · exact h.memo other outcome hother hmemo

theorem analyse_eq_ok_iff {definition : ClassDefinition} {model : ClassModel} :
    AnalysisMemo.analyse analyzer definition = .ok model ↔ analyzer definition = .ok model := by
  unfold AnalysisMemo.analyse
  cases analyzer definition <;> simp [Except.mapError]

/-- The next state is faithful, and records what was recorded before and what the record
proves. -/
structure Adds (catalog : Catalog) (analyzer : Analyzer) (record : ProbeRecord)
    (progress next : Progress) : Prop where
  faithful : next.mapper.Faithful catalog analyzer
  records_iff : ∀ path line, next.coverage.Records path line ↔
    progress.coverage.Records path line ∨ record.Proves catalog analyzer path line
  lined : progress.coverage.Lined → next.coverage.Lined

theorem Adds.of_not_proves {record : ProbeRecord} {next : Progress}
    (hfaithful : next.mapper.Faithful catalog analyzer)
    (hcoverage : next.coverage = progress.coverage)
    (hnot : ∀ path line, ¬ record.Proves catalog analyzer path line) :
    Adds catalog analyzer record progress next :=
  ⟨hfaithful, fun path line => by rw [hcoverage, or_iff_left (hnot path line)],
    fun hlined => hcoverage.symm ▸ hlined⟩

theorem Faithful.adds_omit (h : progress.mapper.Faithful catalog analyzer) {record : ProbeRecord}
    (omission : Omission) (hnot : ∀ path line, ¬ record.Proves catalog analyzer path line) :
    Adds catalog analyzer record progress (progress.omit record.id omission) :=
  have ⟨hfaithful, hcoverage⟩ := h.omit record.id omission
  .of_not_proves hfaithful hcoverage hnot

/-- One more record adds the lines that it proves. -/
theorem Faithful.add (h : progress.mapper.Faithful catalog analyzer) (hkeyed : catalog.Keyed)
    (record : ProbeRecord) : Adds catalog analyzer record progress (progress.add record) := by
  unfold Progress.add
  split
  · next hany =>
    refine .of_not_proves h rfl fun path line hproves => ?_
    simp [hproves.any] at hany
  rw [h.catalog_eq]
  cases hfound : catalog.find? record.id with
  | none => exact h.adds_omit _ fun _ _ => ProbeRecord.not_proves_of_unknown hfound
  | some definition =>
    have hid := hkeyed record.id definition hfound
    dsimp only
    split
    · next hname =>
      exact h.adds_omit _ fun _ _ hproves =>
        hname ((ProbeRecord.proves_iff_of_found hfound).mp hproves).1
    · next hname =>
      obtain ⟨hfaithful, hcoverage, houtcome⟩ := h.modelFor (hid.symm ▸ hfound)
      generalize progress.modelFor definition = answer at hfaithful hcoverage houtcome
      obtain ⟨next, outcome⟩ := answer
      dsimp only at hfaithful hcoverage houtcome ⊢
      cases outcome with
      | error fault =>
        refine .of_not_proves hfaithful hcoverage fun path line hproves => ?_
        obtain ⟨-, model, hmodel, -⟩ := (ProbeRecord.proves_iff_of_found hfound).mp hproves
        rw [← analyse_eq_ok_iff, ← houtcome] at hmodel
        cases hmodel
      | ok model =>
        have hproves (path : String) (line : Line) : record.Proves catalog analyzer path line ↔ _ :=
          ProbeRecord.proves_iff_of_model hfound (not_not.mp hname)
            (analyse_eq_ok_iff.mp houtcome.symm)
        dsimp only
        split
        · next hcount =>
          obtain ⟨homit, hsame⟩ :=
            hfaithful.omit record.id (.probeCount record model.probes.length)
          exact .of_not_proves homit (hsame.trans hcoverage) fun path line h =>
            hcount ((hproves path line).mp h).1
        · next hcount =>
          refine ⟨hfaithful, fun path line => ?_, fun hlined => ?_⟩
          · rw [SourceLines.records_add_iff, hcoverage, hproves,
              and_iff_right (not_not.mp hcount)]
          · rw [hcoverage]
            exact hlined.add _ _

theorem Faithful.foldl_add (hkeyed : catalog.Keyed) (records : List ProbeRecord)
    (h : progress.mapper.Faithful catalog analyzer) :
    (records.foldl Progress.add progress).mapper.Faithful catalog analyzer ∧
      (∀ path line, (records.foldl Progress.add progress).coverage.Records path line ↔
        progress.coverage.Records path line ∨
          ∃ record ∈ records, record.Proves catalog analyzer path line) ∧
      (progress.coverage.Lined → (records.foldl Progress.add progress).coverage.Lined) := by
  induction records generalizing progress with
  | nil => exact ⟨h, by simp, id⟩
  | cons record rest ih =>
    have hstep := h.add hkeyed record
    obtain ⟨hrest, hmore, hlined⟩ := ih hstep.faithful
    refine ⟨hrest, fun path line => ?_, hlined ∘ hstep.lined⟩
    rw [List.foldl_cons, hmore, hstep.records_iff, or_assoc]
    simp

/-- The lines of a store are those that one of its records proves. -/
theorem Faithful.map {mapper : LineMapper} (h : mapper.Faithful catalog analyzer)
    (hkeyed : catalog.Keyed) (store : ProbeStore) :
    (mapper.map store).mapper.Faithful catalog analyzer ∧
      (∀ path line, (mapper.map store).coverage.Records path line ↔
        ∃ record ∈ store.records, record.Proves catalog analyzer path line) ∧
      (mapper.map store).coverage.Lined := by
  have hstart : (⟨mapper, .empty, []⟩ : Progress).mapper.Faithful catalog analyzer := h
  obtain ⟨hfaithful, hlines, hlined⟩ := hstart.foldl_add hkeyed store.records
  refine ⟨hfaithful, fun path line => (hlines path line).trans ?_,
    hlined SourceLines.lined_empty⟩
  simp [SourceLines.not_records_empty]

/-- The coverage of a store does not depend on what a mapper remembers. -/
theorem Faithful.coverage_eq (hkeyed : catalog.Keyed) {first second : LineMapper}
    (hfirst : first.Faithful catalog analyzer) (hsecond : second.Faithful catalog analyzer)
    (store : ProbeStore) : (first.map store).coverage = (second.map store).coverage := by
  obtain ⟨-, hlines, hlined⟩ := hfirst.map hkeyed store
  obtain ⟨-, hlines', hlined'⟩ := hsecond.map hkeyed store
  exact hlined.ext hlined' fun path line => (hlines path line).trans (hlines' path line).symm

end LineMapper

end TestCoverage

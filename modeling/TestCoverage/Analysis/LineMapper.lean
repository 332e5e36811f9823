import TestCoverage.Analysis.Memo
import TestCoverage.Catalog
import TestCoverage.Lines.SourceLines
import TestCoverage.Probe.Store

/-!
# From probe hits to covered lines

A mapper knows a catalog of classes and an analyzer. It maps a store record by record, by
ascending identifiers: a record with a hit contributes the lines of its hit probes if the
catalog has the class, under the record's name, if the class has a model, and if the model
has as many probes as the record (`LineMapper.map`).

Why a class is left out is noted once in the life of a mapper: by class identifier for what
the record and the catalog or the model disagree on (`LineMapper.warned`), by class identity
for a failed analysis (`AnalysisMemo`).
-/

namespace TestCoverage

/-- Why the records of a class contribute no lines. -/
inductive Omission where
  | unknownClass (record : ProbeRecord)
  | otherName (record : ProbeRecord) (definition : ClassDefinition)
  | probeCount (record : ProbeRecord) (expected : Nat)
  | analysis (fault : AnalysisFault)
deriving DecidableEq, Repr

def Omission.message : Omission → String
  | .unknownClass record =>
    "class " ++ record.hits.className ++ " (" ++ record.id.render ++
      ") was not found in the class roots; its coverage is omitted"
  | .otherName record definition =>
    "class id " ++ record.id.render ++ " names " ++ record.hits.className ++
      " in the execution data but " ++ definition.name ++ " at `" ++
      definition.location.path ++ "`; its coverage is omitted"
  | .probeCount record expected =>
    "execution data for class " ++ record.hits.className ++ " (" ++ record.id.render ++
      ") has " ++ toString record.hits.probes.length ++ " probes, but its class file has " ++
      toString expected ++ "; its coverage is omitted"
  | .analysis fault => fault.message ++ "; its coverage is omitted"

/-- What maps stores, with what it remembers. -/
structure LineMapper where
  catalog : Catalog
  analyzer : Analyzer
  memo : AnalysisMemo
  /-- The identifiers whose omission was noted. -/
  warned : List ClassId

namespace LineMapper

def fresh (catalog : Catalog) (analyzer : Analyzer) : LineMapper :=
  ⟨catalog, analyzer, .empty, []⟩

/-- A mapping that is under way: the lines so far and what was noted. -/
structure Progress where
  mapper : LineMapper
  coverage : SourceLines
  omissions : List Omission

/-- Leaves a record out. The omission is noted if it is the first one of its identifier. -/
def Progress.omit (progress : Progress) (id : ClassId) (omission : Omission) : Progress :=
  if progress.mapper.warned.contains id then progress
  else
    { progress with
      mapper := { progress.mapper with warned := id :: progress.mapper.warned }
      omissions := progress.omissions ++ [omission] }

/-- Asks for the model of a class. A fault that is found now is noted. -/
def Progress.modelFor (progress : Progress) (definition : ClassDefinition) :
    Progress × Except AnalysisFault ClassModel :=
  let (memo, outcome, fault?) :=
    progress.mapper.memo.modelFor progress.mapper.analyzer definition
  ({ progress with
      mapper := { progress.mapper with memo }
      omissions := progress.omissions ++ fault?.toList.map Omission.analysis },
    outcome)

def Progress.add (progress : Progress) (record : ProbeRecord) : Progress :=
  if !record.hits.any then progress
  else
    match progress.mapper.catalog.find? record.id with
    | none => progress.omit record.id (.unknownClass record)
    | some definition =>
      if definition.name ≠ record.hits.className then
        progress.omit record.id (.otherName record definition)
      else
        match progress.modelFor definition with
        | (progress, .error _) => progress
        | (progress, .ok model) =>
          if model.probes.length ≠ record.hits.probes.length then
            progress.omit record.id (.probeCount record model.probes.length)
          else
            { progress with
              coverage :=
                progress.coverage.add model.sourcePath (model.coveredLines record.hits.probes) }

/-- The lines that the records of a store prove executed, with the mapper afterwards and what
was noted on the way. -/
def map (mapper : LineMapper) (store : ProbeStore) : Progress :=
  store.records.foldl Progress.add ⟨mapper, .empty, []⟩

end LineMapper

end TestCoverage

import Mathlib
import TestCoverage.Proofs.Analysis.LineMapper

/-!
# What a memo answers and how often it asks

Requests for models come one after the other, each with the analyzer that would be asked. A
memo answers a request with what the first request of the same class identity said
(`AnalysisMemo.find?_askAll`), so an analyzer runs at the first request of each identity and
at no other (`AnalysisMemo.ask_askAll`), and its fault is noted there
(`AnalysisMemo.mem_faults_iff`).

The requests that a mapper makes for a store are those of the records with a hit whose class
the catalog has under their name (`LineMapper.requests`, `LineMapper.asks_map`).
-/

namespace TestCoverage

/-- A request for the model of a class, with the analyzer that would be asked. -/
structure ModelRequest where
  analyzer : Analyzer
  definition : ClassDefinition

namespace ModelRequest

def identity (request : ModelRequest) : ClassIdentity := request.definition.identity

/-- What the analyzer says. -/
def outcome (request : ModelRequest) : Except AnalysisFault ClassModel :=
  AnalysisMemo.analyse request.analyzer request.definition

/-- The fault, if there is no model. -/
def fault? (request : ModelRequest) : Option AnalysisFault :=
  match request.outcome with
  | .error fault => some fault
  | .ok _ => none

theorem fault?_eq_some_iff {request : ModelRequest} {fault : AnalysisFault} :
    request.fault? = some fault ↔ request.outcome = .error fault := by
  unfold fault?
  cases request.outcome <;> simp

theorem identity_of_outcome {request : ModelRequest} {fault : AnalysisFault}
    (h : request.outcome = .error fault) : fault.identity = request.identity := by
  unfold outcome AnalysisMemo.analyse at h
  cases hsaid : request.analyzer request.definition with
  | ok model => simp [hsaid, Except.mapError] at h
  | error reasons =>
    simp only [hsaid, Except.mapError, Except.error.injEq] at h
    exact congrArg AnalysisFault.identity h.symm

end ModelRequest

namespace AnalysisMemo

def identities (memo : AnalysisMemo) : List ClassIdentity := memo.known.map (·.1)

/-- Answers a request. -/
def ask (memo : AnalysisMemo) (request : ModelRequest) :
    AnalysisMemo × Except AnalysisFault ClassModel × Option AnalysisFault :=
  modelFor request.analyzer memo request.definition

/-- Answers requests, one after the other. -/
def askAll (memo : AnalysisMemo) (requests : List ModelRequest) : AnalysisMemo :=
  requests.foldl (fun memo request => (memo.ask request).1) memo

/-- The faults that are noted along some requests. -/
def faults : AnalysisMemo → List ModelRequest → List AnalysisFault
  | _, [] => []
  | memo, request :: rest => (memo.ask request).2.2.toList ++ faults (memo.ask request).1 rest

variable {memo : AnalysisMemo} {request : ModelRequest} {requests : List ModelRequest}

theorem find?_eq_none_iff {identity : ClassIdentity} :
    memo.find? identity = none ↔ identity ∉ memo.identities := by
  rw [find?, identities, Option.map_eq_none_iff, List.find?_eq_none, List.mem_map]
  simp only [beq_iff_eq, not_exists, not_and]

theorem ask_of_known {outcome : Except AnalysisFault ClassModel}
    (h : memo.find? request.identity = some outcome) :
    memo.ask request = (memo, outcome, none) := by
  unfold ask modelFor
  rw [show memo.find? request.definition.identity = some outcome from h]

theorem ask_of_unknown (h : memo.find? request.identity = none) :
    memo.ask request =
      (⟨(request.identity, request.outcome) :: memo.known, memo.runs + 1⟩, request.outcome,
        request.fault?) := by
  unfold ask modelFor
  rw [show memo.find? request.definition.identity = none from h]
  rfl

/-! ## What is known after some requests -/

theorem find?_ask (memo : AnalysisMemo) (request : ModelRequest) (identity : ClassIdentity) :
    (memo.ask request).1.find? identity =
      (memo.find? identity).or
        (if request.identity = identity then some request.outcome else none) := by
  cases hknown : memo.find? request.identity with
  | some outcome =>
    rw [ask_of_known hknown]
    split
    · next hidentity => rw [← hidentity, hknown, Option.some_or]
    · rw [Option.or_none]
  | none =>
    rw [ask_of_unknown hknown, LineMapper.find?_cons]
    split
    · next hidentity => rw [← hidentity, hknown, Option.none_or]
    · rw [Option.or_none]

/-- What is known of an identity is what was known before, or else what the first request of
the identity said. -/
theorem find?_askAll (memo : AnalysisMemo) (requests : List ModelRequest)
    (identity : ClassIdentity) :
    (memo.askAll requests).find? identity =
      (memo.find? identity).or
        ((requests.find? (·.identity = identity)).map ModelRequest.outcome) := by
  induction requests generalizing memo with
  | nil => exact (Option.or_none).symm
  | cons request rest ih =>
    refine (ih (memo.ask request).1).trans ?_
    rw [find?_ask, Option.or_assoc, List.find?_cons]
    by_cases hidentity : request.identity = identity <;> simp [hidentity]

theorem mem_identities_askAll_iff {identity : ClassIdentity} :
    identity ∈ (memo.askAll requests).identities ↔
      identity ∈ memo.identities ∨ identity ∈ requests.map ModelRequest.identity := by
  rw [← not_iff_not, ← find?_eq_none_iff, find?_askAll, Option.or_eq_none_iff,
    find?_eq_none_iff, not_or]
  simp

theorem mem_identities_iff {identity : ClassIdentity} :
    identity ∈ (empty.askAll requests).identities ↔
      identity ∈ requests.map ModelRequest.identity :=
  mem_identities_askAll_iff.trans (or_iff_right List.not_mem_nil)

/-- Each run of an analyzer is for an identity that no other run was for. -/
structure Counted (memo : AnalysisMemo) : Prop where
  nodup : memo.identities.Nodup
  runs : memo.runs = memo.known.length

theorem Counted.ask (h : memo.Counted) (request : ModelRequest) : (memo.ask request).1.Counted := by
  cases hknown : memo.find? request.identity with
  | some outcome =>
    rw [ask_of_known hknown]
    exact h
  | none =>
    rw [ask_of_unknown hknown]
    exact ⟨List.nodup_cons.mpr ⟨find?_eq_none_iff.mp hknown, h.nodup⟩, congrArg (· + 1) h.runs⟩

theorem Counted.askAll (h : memo.Counted) (requests : List ModelRequest) :
    (memo.askAll requests).Counted := by
  induction requests generalizing memo with
  | nil => exact h
  | cons request rest ih => exact ih (h.ask request)

theorem counted_empty : empty.Counted := ⟨List.nodup_nil, rfl⟩

/-- After some requests as many classes were analysed as identities were asked for. -/
theorem runs_askAll (requests : List ModelRequest) :
    (empty.askAll requests).runs = (requests.map ModelRequest.identity).dedup.length ∧
      (empty.askAll requests).size = (requests.map ModelRequest.identity).dedup.length := by
  have hcounted := counted_empty.askAll requests
  have hsame : (empty.askAll requests).identities.toFinset =
      (requests.map ModelRequest.identity).toFinset := by
    ext identity
    rw [List.mem_toFinset, List.mem_toFinset, mem_identities_iff]
  have hcard := congrArg Finset.card hsame
  rw [List.toFinset_card_of_nodup hcounted.nodup, List.card_toFinset, identities,
    List.length_map] at hcard
  exact ⟨hcounted.runs.trans hcard, hcard⟩

/-! ## Faults -/

theorem askAll_append (memo : AnalysisMemo) (first second : List ModelRequest) :
    memo.askAll (first ++ second) = (memo.askAll first).askAll second :=
  List.foldl_append

theorem faults_append (memo : AnalysisMemo) (first second : List ModelRequest) :
    memo.faults (first ++ second) = memo.faults first ++ (memo.askAll first).faults second := by
  induction first generalizing memo with
  | nil => rfl
  | cons request rest ih =>
    rw [List.cons_append, faults, faults, ih, List.append_assoc]
    rfl

theorem mem_fault_ask_iff {fault : AnalysisFault} :
    fault ∈ (memo.ask request).2.2.toList ↔
      memo.find? request.identity = none ∧ request.outcome = .error fault := by
  cases hknown : memo.find? request.identity with
  | some outcome =>
    rw [ask_of_known hknown]
    simp
  | none =>
    rw [ask_of_unknown hknown, Option.mem_toList, and_iff_right rfl]
    exact ModelRequest.fault?_eq_some_iff

/-- The faults that are noted are those that become known. -/
theorem mem_faults_iff {fault : AnalysisFault} :
    fault ∈ memo.faults requests ↔
      memo.find? fault.identity = none ∧
        (memo.askAll requests).find? fault.identity = some (.error fault) := by
  induction requests generalizing memo with
  | nil =>
    refine iff_of_false List.not_mem_nil ?_
    rintro ⟨hnone, hsome⟩
    cases hnone.symm.trans hsome
  | cons request rest ih =>
    have hrest : memo.askAll (request :: rest) = (memo.ask request).1.askAll rest := rfl
    rw [faults, List.mem_append, mem_fault_ask_iff, ih, ← hrest, find?_ask, find?_askAll,
      List.find?_cons]
    by_cases hidentity : request.identity = fault.identity
    · simp only [hidentity, decide_true, Option.map_some]
      cases memo.find? fault.identity <;> simp
    · have hother : request.outcome ≠ .error fault := fun houtcome =>
        hidentity (ModelRequest.identity_of_outcome houtcome).symm
      simp [hidentity, hother]

/-- No identity is noted twice. -/
theorem nodup_faults (memo : AnalysisMemo) (requests : List ModelRequest) :
    ((memo.faults requests).map (·.identity)).Nodup := by
  induction requests generalizing memo with
  | nil => exact List.nodup_nil
  | cons request rest ih =>
    rw [faults, List.map_append]
    refine List.nodup_append.mpr ⟨?_, ih _, ?_⟩
    · cases (memo.ask request).2.2 with
      | none => exact List.nodup_nil
      | some fault => exact List.nodup_singleton _
    · -- what is noted now is known afterwards
      intro identity hnow other hlater heq
      obtain ⟨fault, hfault, rfl⟩ := List.mem_map.mp hnow
      obtain ⟨later, hafter, rfl⟩ := List.mem_map.mp hlater
      have houtcome := (mem_fault_ask_iff.mp hfault).2
      have hunknown := (mem_faults_iff.mp hafter).1
      rw [find?_ask, Option.or_eq_none_iff, ← heq,
        ModelRequest.identity_of_outcome houtcome, if_pos rfl] at hunknown
      exact Option.some_ne_none _ hunknown.2

/-- A request is answered with what the first request of its identity said. The analyzer runs,
and its fault is noted, if this is the first one. -/
theorem ask_askAll (requests : List ModelRequest) (request : ModelRequest) :
    let memo := empty.askAll requests
    (memo.ask request).2.1 =
      (((requests.find? (·.identity = request.identity)).getD request).outcome) ∧
    if request.identity ∈ requests.map ModelRequest.identity then
      (memo.ask request).1 = memo ∧ (memo.ask request).2.2 = none
    else
      (memo.ask request).1.runs = memo.runs + 1 ∧ (memo.ask request).2.2 = request.fault? := by
  intro memo
  have hfind : memo.find? request.identity =
      (requests.find? (·.identity = request.identity)).map ModelRequest.outcome :=
    find?_askAll empty requests request.identity
  cases hfirst : requests.find? (·.identity = request.identity) with
  | some first =>
    rw [hfirst, Option.map_some] at hfind
    have hmem : request.identity ∈ requests.map ModelRequest.identity := by
      have hsame := List.find?_some hfirst
      exact List.mem_map.mpr ⟨first, List.mem_of_find?_eq_some hfirst, of_decide_eq_true hsame⟩
    rw [ask_of_known hfind, if_pos hmem]
    exact ⟨rfl, rfl, rfl⟩
  | none =>
    rw [hfirst, Option.map_none] at hfind
    have hmem : request.identity ∉ requests.map ModelRequest.identity := by
      simpa using hfirst
    rw [ask_of_unknown hfind, if_neg hmem]
    exact ⟨rfl, rfl, rfl⟩

end AnalysisMemo

/-! ## The requests of a mapper -/

/-- The fault of an analysis. -/
def Omission.fault? : Omission → Option AnalysisFault
  | .analysis fault => some fault
  | .unknownClass _ | .otherName _ _ | .probeCount _ _ => none

namespace LineMapper

/-- The request that a record makes: it has a hit, and its class is in the catalog under its
name. -/
def request? (catalog : Catalog) (analyzer : Analyzer) (record : ProbeRecord) :
    Option ModelRequest :=
  if record.hits.any then
    match catalog.find? record.id with
    | some definition =>
      if definition.name = record.hits.className then some ⟨analyzer, definition⟩ else none
    | none => none
  else none

/-- The requests that a store makes. -/
def requests (catalog : Catalog) (analyzer : Analyzer) (store : ProbeStore) :
    List ModelRequest :=
  store.records.filterMap (request? catalog analyzer)

/-- The next mapper is the one that has answered the requests, which was noted with these
faults. -/
structure Asks (requests : List ModelRequest) (mapper next : LineMapper)
    (noted : List AnalysisFault) : Prop where
  catalog_eq : next.catalog = mapper.catalog
  analyzer_eq : next.analyzer = mapper.analyzer
  memo_eq : next.memo = mapper.memo.askAll requests
  noted_eq : noted = mapper.memo.faults requests

theorem Asks.refl (mapper : LineMapper) : Asks [] mapper mapper [] := ⟨rfl, rfl, rfl, rfl⟩

theorem Asks.trans {first second : List ModelRequest} {mapper next last : LineMapper}
    {noted more : List AnalysisFault} (h : Asks first mapper next noted)
    (hmore : Asks second next last more) : Asks (first ++ second) mapper last (noted ++ more) where
  catalog_eq := hmore.catalog_eq.trans h.catalog_eq
  analyzer_eq := hmore.analyzer_eq.trans h.analyzer_eq
  memo_eq := by rw [hmore.memo_eq, h.memo_eq, AnalysisMemo.askAll_append]
  noted_eq := by rw [hmore.noted_eq, h.noted_eq, h.memo_eq, AnalysisMemo.faults_append]

variable {progress : Progress}

/-- The step makes these requests. -/
def Progress.AsksFor (requests : List ModelRequest) (progress next : Progress) : Prop :=
  ∃ noted, Asks requests progress.mapper next.mapper noted ∧
    next.omissions.filterMap Omission.fault? =
      progress.omissions.filterMap Omission.fault? ++ noted

/-- Leaving a record out asks for nothing. -/
theorem asksFor_omit (progress : Progress) (id : ClassId) {omission : Omission}
    (h : omission.fault? = none) : progress.AsksFor [] (progress.omit id omission) := by
  refine ⟨[], ?_⟩
  unfold Progress.omit
  split
  · exact ⟨.refl _, (List.append_nil _).symm⟩
  · refine ⟨⟨rfl, rfl, rfl, rfl⟩, ?_⟩
    rw [List.filterMap_append, List.filterMap_cons_none h]
    rfl

theorem asksFor_modelFor (progress : Progress) (definition : ClassDefinition) :
    progress.AsksFor [⟨progress.mapper.analyzer, definition⟩]
      (progress.modelFor definition).1 := by
  refine ⟨_, ⟨rfl, rfl, rfl, rfl⟩, ?_⟩
  have hanalysis : Omission.fault? ∘ Omission.analysis = some := rfl
  change (progress.omissions ++ List.map Omission.analysis _).filterMap Omission.fault? = _
  rw [List.filterMap_append, List.filterMap_map, hanalysis, List.filterMap_some]
  exact congrArg _ (List.append_nil _).symm

theorem Progress.AsksFor.trans {first second : List ModelRequest} {next last : Progress}
    (h : progress.AsksFor first next) (hmore : next.AsksFor second last) :
    progress.AsksFor (first ++ second) last := by
  obtain ⟨noted, hasks, hfaults⟩ := h
  obtain ⟨more, hasksMore, hfaultsMore⟩ := hmore
  exact ⟨noted ++ more, hasks.trans hasksMore, by
    rw [hfaultsMore, hfaults, List.append_assoc]⟩

/-- A record makes the request that it calls for. -/
theorem asksFor_add (progress : Progress) (record : ProbeRecord) :
    progress.AsksFor
      (request? progress.mapper.catalog progress.mapper.analyzer record).toList
      (progress.add record) := by
  unfold Progress.add request?
  cases hany : record.hits.any with
  | false => exact ⟨[], .refl _, (List.append_nil _).symm⟩
  | true =>
    simp only [Bool.not_true, Bool.false_eq_true, if_false, if_true]
    cases hfound : progress.mapper.catalog.find? record.id with
    | none => exact asksFor_omit progress record.id rfl
    | some definition =>
      dsimp only
      by_cases hname : definition.name = record.hits.className
      · rw [if_neg (not_not_intro hname), if_pos hname]
        have hasks := asksFor_modelFor progress definition
        generalize progress.modelFor definition = answer at hasks ⊢
        obtain ⟨next, outcome⟩ := answer
        cases outcome with
        | error fault => exact hasks
        | ok model =>
          dsimp only
          split
          · exact hasks.trans (asksFor_omit next record.id rfl)
          · obtain ⟨noted, hmapper, hfaults⟩ := hasks
            exact ⟨noted, hmapper, hfaults⟩
      · rw [if_pos hname, if_neg hname]
        exact asksFor_omit progress record.id rfl

/-- Mapping a store makes the requests of its records. -/
theorem asks_map (mapper : LineMapper) (store : ProbeStore) :
    Asks (requests mapper.catalog mapper.analyzer store) mapper (mapper.map store).mapper
      ((mapper.map store).omissions.filterMap Omission.fault?) := by
  have hrecords (records : List ProbeRecord) (progress : Progress)
      (hcatalog : progress.mapper.catalog = mapper.catalog)
      (hanalyzer : progress.mapper.analyzer = mapper.analyzer) :
      progress.AsksFor (records.filterMap (request? mapper.catalog mapper.analyzer))
        (records.foldl Progress.add progress) := by
    induction records generalizing progress with
    | nil => exact ⟨[], .refl _, (List.append_nil _).symm⟩
    | cons record rest ih =>
      have hfirst := asksFor_add progress record
      rw [hcatalog, hanalyzer] at hfirst
      obtain ⟨noted, hasks, -⟩ := id hfirst
      have hrest := ih (progress.add record) (hasks.catalog_eq.trans hcatalog)
        (hasks.analyzer_eq.trans hanalyzer)
      have hrequests : (record :: rest).filterMap (request? mapper.catalog mapper.analyzer) =
          (request? mapper.catalog mapper.analyzer record).toList ++
            rest.filterMap (request? mapper.catalog mapper.analyzer) := by
        rw [List.filterMap_cons]
        split <;> simp_all
      rw [hrequests]
      exact hfirst.trans hrest
  obtain ⟨noted, hasks, hfaults⟩ := hrecords store.records ⟨mapper, .empty, []⟩ rfl rfl
  rw [map, hfaults]
  exact hasks

end LineMapper

end TestCoverage

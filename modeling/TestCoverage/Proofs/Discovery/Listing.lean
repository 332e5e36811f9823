import Mathlib
import TestCoverage.Discovery.Listing

/-!
# Listings by first definitions

A listing keeps a map of the first definitions so far. Here it is compared with the plain list
of the candidates: the definitions, in the order of their sightings, that are at wanted
locations and can be read (`Listing.candidates`).

* `Listing.Knows.classify`: the map holds the first candidate of each name, and with it a
  candidate is judged as it is by the candidates before it.
* `Listing.filter_settles_ofSightings`: what a listing says of definitions is what each
  candidate comes to after those before it.
* `Listing.conflicts_ne_nil_iff`: there is a conflict exactly if two candidates of one name are
  different versions.
* `Listing.ofSightings_resolves`: the definitions, the conflicts and the catalog of a listing,
  under both policies.
-/

namespace TestCoverage

/-- What a listing has for a conflict. -/
def ConflictPolicy.report : ConflictPolicy → Conflict → Listed
  | .fail, conflict => .conflict conflict
  | .keepFirst, conflict => .notice (.conflict conflict)

/-- The conflict between two definitions of one name. -/
def Conflict.between (first second : ClassDefinition) : Conflict :=
  ⟨second.name, first.location, first.id, second.location, second.id⟩

namespace Listed

/-- It says what became of a definition. -/
def settles : Listed → Bool
  | .definition _ => true
  | .conflict _ => true
  | .notice (.conflict _) => true
  | .notice _ => false

def definition? : Listed → Option ClassDefinition
  | .definition found => some found
  | _ => none

def conflict? : Listed → Option Conflict
  | .conflict found => some found
  | _ => none

/-- The conflict that is only noted. -/
def notedConflict? : Listed → Option Conflict
  | .notice (.conflict found) => some found
  | _ => none

end Listed

namespace Listing

/-! ## Candidates -/

/-- The definition in a class file, if it is at a wanted location and can be read. -/
def candidate? (rules : Rules) : Sighting → Option ClassDefinition
  | .notice _ => none
  | .classFile location bytes =>
    if rules.wants location.path then (ClassDefinition.read location bytes).toOption else none

/-- The definitions that are sighted at wanted locations and can be read, in order. -/
def candidates (rules : Rules) (sightings : List Sighting) : List ClassDefinition :=
  sightings.filterMap (candidate? rules)

/-- Each element of a list with those before it, of which `earlier` come before the list. -/
def withEarlier {α : Type} (earlier : List α) : List α → List (List α × α)
  | [] => []
  | a :: rest => (earlier, a) :: withEarlier (earlier ++ [a]) rest

def first? (found : List ClassDefinition) (name : String) : Option ClassDefinition :=
  found.find? (·.name = name)

/-- The first candidate of each name, in order. -/
def firsts (found : List ClassDefinition) : List ClassDefinition :=
  (withEarlier [] found).filterMap fun (earlier, definition) =>
    if ∀ other ∈ earlier, other.name ≠ definition.name then some definition else none

/-- The conflict of a definition with the first one of its name, if that one is earlier and
another version. -/
def conflictWith? (earlier : List ClassDefinition) (definition : ClassDefinition) :
    Option Conflict :=
  match first? earlier definition.name with
  | none => none
  | some first => if first.id = definition.id then none else some (.between first definition)

/-- The conflicts of all candidates with the first ones of their names, in order. -/
def conflicts (found : List ClassDefinition) : List Conflict :=
  (withEarlier [] found).filterMap fun (earlier, definition) => conflictWith? earlier definition

/-- What a definition comes to after earlier ones. -/
def verdict (policy : ConflictPolicy) (earlier : List ClassDefinition)
    (definition : ClassDefinition) : Option Listed :=
  if ∀ other ∈ earlier, other.name ≠ definition.name then some (.definition definition)
  else (conflictWith? earlier definition).map policy.report

theorem mem_withEarlier_iff {α : Type} {before found earlier : List α} {a : α} :
    (earlier, a) ∈ withEarlier before found ↔
      ∃ front back, found = front ++ a :: back ∧ earlier = before ++ front := by
  induction found generalizing before with
  | nil => simp [withEarlier]
  | cons b rest ih =>
    rw [withEarlier, List.mem_cons, ih]
    constructor
    · rintro (h | ⟨front, back, rfl, rfl⟩)
      · obtain ⟨rfl, rfl⟩ := Prod.mk.inj h
        exact ⟨[], rest, rfl, (List.append_nil earlier).symm⟩
      · exact ⟨b :: front, back, rfl, by simp⟩
    · rintro ⟨front, back, hfound, rfl⟩
      cases front with
      | nil =>
        obtain ⟨rfl, rfl⟩ := List.cons.inj hfound
        exact Or.inl (by simp)
      | cons c front =>
        obtain ⟨rfl, rfl⟩ := List.cons.inj hfound
        exact Or.inr ⟨front, back, rfl, by simp⟩

theorem first?_eq_none_iff {found : List ClassDefinition} {name : String} :
    first? found name = none ↔ ∀ other ∈ found, other.name ≠ name := by
  simp [first?]

theorem first?_append (found more : List ClassDefinition) (name : String) :
    first? (found ++ more) name = (first? found name).or (first? more name) :=
  List.find?_append

/-- A conflict is of a definition that is not the first of its name. -/
theorem conflictWith?_eq_none {earlier : List ClassDefinition} {definition : ClassDefinition}
    (h : ∀ other ∈ earlier, other.name ≠ definition.name) :
    conflictWith? earlier definition = none := by
  rw [conflictWith?, first?_eq_none_iff.mpr h]

/-! ## What a listing knows -/

/-- The map holds the first of the definitions of each name. -/
def Knows (known : Known) (found : List ClassDefinition) : Prop :=
  ∀ name, known.find? name = (first? found name).map fun first => (first.id, first.location)

theorem knows_empty : Knows .empty [] := fun _ => rfl

variable {known : Known} {found : List ClassDefinition} {rules : Rules} {policy : ConflictPolicy}

/-- A definition of a name that has a first one changes nothing. -/
theorem Knows.snoc_of_some (h : Knows known found) {first definition : ClassDefinition}
    (hfirst : first? found definition.name = some first) : Knows known (found ++ [definition]) := by
  intro name
  rw [h name, first?_append]
  by_cases hname : definition.name = name
  · subst hname
    rw [hfirst, Option.some_or]
  · have hnone : first? [definition] name = none := by simp [first?, hname]
    rw [hnone, Option.or_none]

theorem Knows.snoc_of_none (h : Knows known found) {definition : ClassDefinition}
    (hfirst : first? found definition.name = none) :
    Knows (known.set definition.name (definition.id, definition.location))
      (found ++ [definition]) := by
  intro name
  rw [OrderedMap.find?_set, first?_append]
  split
  · next hname =>
    subst hname
    have hself : first? [definition] definition.name = some definition := by simp [first?]
    rw [hfirst, Option.none_or, hself]
    rfl
  · next hname =>
    have hnone : first? [definition] name = none := by simp [first?, hname]
    rw [h name, hnone, Option.or_none]

/-- A definition is judged by the map as by the definitions before it. -/
theorem Knows.classify (h : Knows known found) (policy : ConflictPolicy)
    (definition : ClassDefinition) :
    (Listing.classify policy known definition).1 = verdict policy found definition ∧
      Knows (Listing.classify policy known definition).2 (found ++ [definition]) := by
  unfold Listing.classify verdict
  cases hfirst : first? found definition.name with
  | none =>
    have hnew := first?_eq_none_iff.mp hfirst
    rw [h definition.name, hfirst, if_pos hnew]
    exact ⟨rfl, h.snoc_of_none hfirst⟩
  | some first =>
    have hold : ¬ ∀ other ∈ found, other.name ≠ definition.name := by
      rw [← first?_eq_none_iff, hfirst]
      simp
    rw [h definition.name, hfirst, if_neg hold, conflictWith?, hfirst]
    dsimp only [Option.map_some]
    split
    · exact ⟨rfl, h.snoc_of_some hfirst⟩
    · cases policy with
      | fail => exact ⟨rfl, h.snoc_of_some hfirst⟩
      | keepFirst => exact ⟨rfl, h.snoc_of_some hfirst⟩

theorem settles_of_verdict {definition : ClassDefinition} {listed : Listed}
    (h : verdict policy found definition = some listed) : listed.settles = true := by
  unfold verdict at h
  split at h
  · obtain rfl := Option.some.inj h
    rfl
  · obtain ⟨conflict, -, rfl⟩ := Option.map_eq_some_iff.mp h
    cases policy <;> rfl

/-- A sighting that is no candidate says nothing of a definition and leaves the map. -/
theorem step_of_candidate?_eq_none {sighting : Sighting} (h : candidate? rules sighting = none)
    (policy : ConflictPolicy) (known : Known) :
    (step rules policy known sighting).1.filter Listed.settles = none ∧
      (step rules policy known sighting).2 = known := by
  cases sighting with
  | notice notice => exact ⟨rfl, rfl⟩
  | classFile location bytes =>
    rw [candidate?] at h
    rw [step]
    cases hwants : rules.wants location.path with
    | false => exact ⟨rfl, rfl⟩
    | true =>
      rw [hwants, if_pos rfl] at h
      cases hread : ClassDefinition.read location bytes with
      | error fault => exact ⟨rfl, rfl⟩
      | ok definition =>
        rw [hread] at h
        cases h

theorem step_of_candidate?_eq_some {sighting : Sighting} {definition : ClassDefinition}
    (h : candidate? rules sighting = some definition) (policy : ConflictPolicy) (known : Known) :
    step rules policy known sighting = classify policy known definition := by
  cases sighting with
  | notice notice => cases h
  | classFile location bytes =>
    rw [candidate?] at h
    rw [step]
    cases hwants : rules.wants location.path with
    | false =>
      rw [hwants] at h
      cases h
    | true =>
      rw [hwants, if_pos rfl] at h
      cases hread : ClassDefinition.read location bytes with
      | error fault =>
        rw [hread] at h
        cases h
      | ok other =>
        rw [hread] at h
        obtain rfl := Option.some.inj h
        rfl

theorem ofSightings_cons (rules : Rules) (policy : ConflictPolicy) (known : Known)
    (sighting : Sighting) (rest : List Sighting) :
    ofSightings rules policy known (sighting :: rest) =
      (step rules policy known sighting).1.toList ++
        ofSightings rules policy (step rules policy known sighting).2 rest := by
  rw [ofSightings]
  generalize step rules policy known sighting = answer
  obtain ⟨listed?, after⟩ := answer
  cases listed? <;> rfl

/-- What a listing says of definitions, in order: each candidate is judged by those before
it. -/
theorem filter_settles_ofSightings (h : Knows known found) (policy : ConflictPolicy)
    (sightings : List Sighting) :
    (ofSightings rules policy known sightings).filter Listed.settles =
      (withEarlier found (candidates rules sightings)).filterMap fun (earlier, definition) =>
        verdict policy earlier definition := by
  induction sightings generalizing known found with
  | nil => rfl
  | cons sighting rest ih =>
    rw [ofSightings_cons, List.filter_append, candidates]
    cases hcandidate : candidate? rules sighting with
    | none =>
      obtain ⟨hlisted, hknown⟩ := step_of_candidate?_eq_none hcandidate policy known
      have hnil : (step rules policy known sighting).1.toList.filter Listed.settles = [] := by
        generalize (step rules policy known sighting).1 = listed? at hlisted
        cases listed? with
        | none => rfl
        | some listed => simpa [Option.filter_some] using hlisted
      rw [hnil, hknown, List.nil_append, List.filterMap_cons_none hcandidate]
      exact ih h
    | some definition =>
      obtain ⟨hverdict, hknows⟩ := h.classify policy definition
      rw [step_of_candidate?_eq_some hcandidate, ih hknows, hverdict,
        List.filterMap_cons_some hcandidate, withEarlier, List.filterMap_cons]
      dsimp only
      cases hlisted : verdict policy found definition with
      | none => rfl
      | some listed =>
        rw [Option.toList_some, List.filter_cons_of_pos (settles_of_verdict hlisted)]
        rfl

/-! ## Definitions and conflicts -/

/-- A selection from what settles a definition can be made from the verdicts. -/
theorem filterMap_ofSightings {α : Type} {select : Listed → Option α}
    (hselect : ∀ listed, listed.settles = false → select listed = none) (policy : ConflictPolicy)
    (sightings : List Sighting) :
    (ofSightings rules policy .empty sightings).filterMap select =
      (withEarlier [] (candidates rules sightings)).filterMap fun (earlier, definition) =>
        (verdict policy earlier definition).bind select := by
  have hfilter (listing : List Listed) :
      (listing.filter Listed.settles).filterMap select = listing.filterMap select := by
    rw [List.filterMap_filter]
    refine List.filterMap_congr fun listed _ => ?_
    cases hsettles : listed.settles with
    | true => exact if_pos rfl
    | false => exact (hselect listed hsettles).symm
  rw [← hfilter, filter_settles_ofSightings knows_empty, List.filterMap_filterMap]

theorem definition?_eq_none {listed : Listed} (h : listed.settles = false) :
    listed.definition? = none := by
  cases listed with
  | definition definition => cases h
  | conflict conflict => rfl
  | notice notice => rfl

theorem conflict?_eq_none {listed : Listed} (h : listed.settles = false) :
    listed.conflict? = none := by
  cases listed with
  | definition definition => rfl
  | conflict conflict => cases h
  | notice notice => rfl

theorem notedConflict?_eq_none {listed : Listed} (h : listed.settles = false) :
    listed.notedConflict? = none := by
  cases listed with
  | definition definition => rfl
  | conflict conflict => rfl
  | notice notice =>
    cases notice with
    | survey notice => rfl
    | malformed fault => rfl
    | conflict conflict => cases h

theorem definitions_ofSightings (policy : ConflictPolicy) (sightings : List Sighting) :
    (ofSightings rules policy .empty sightings).filterMap Listed.definition? =
      firsts (candidates rules sightings) := by
  rw [filterMap_ofSightings fun _ => definition?_eq_none]
  refine List.filterMap_congr fun (earlier, definition) _ => ?_
  dsimp only [verdict]
  split
  · rfl
  · cases conflictWith? earlier definition with
    | none => rfl
    | some conflict => cases policy <;> rfl

/-- Each policy has its own way to show a conflict, and shows all of them so. -/
theorem shown_ofSightings {select : Listed → Option Conflict}
    (hselect : ∀ listed, listed.settles = false → select listed = none)
    (hdefinition : ∀ definition, select (.definition definition) = none)
    (policy : ConflictPolicy) (sightings : List Sighting) :
    (ofSightings rules policy .empty sightings).filterMap select =
      (conflicts (candidates rules sightings)).filterMap fun conflict =>
        select (policy.report conflict) := by
  rw [filterMap_ofSightings hselect, conflicts, List.filterMap_filterMap]
  refine List.filterMap_congr fun (earlier, definition) _ => ?_
  dsimp only [verdict]
  split
  · next hnew =>
    rw [conflictWith?_eq_none hnew]
    exact hdefinition definition
  · cases conflictWith? earlier definition <;> rfl

/-- If there is no conflict then every definition is the version of the first of its name. -/
theorem exists_first_of_conflicts_eq_nil (h : conflicts found = []) {definition : ClassDefinition}
    (hmem : definition ∈ found) :
    ∃ first, first? found definition.name = some first ∧ first.id = definition.id := by
  obtain ⟨front, back, rfl⟩ := List.append_of_mem hmem
  have hpair : (front, definition) ∈ withEarlier [] (front ++ definition :: back) :=
    mem_withEarlier_iff.mpr ⟨front, back, rfl, rfl⟩
  have hnone := List.filterMap_eq_nil_iff.mp h _ hpair
  dsimp only [conflictWith?] at hnone
  rw [first?_append]
  cases hfirst : first? front definition.name with
  | none => exact ⟨definition, by simp [first?], rfl⟩
  | some first =>
    rw [hfirst] at hnone
    dsimp only at hnone
    split at hnone
    · next hid => exact ⟨first, rfl, hid⟩
    · cases hnone

/-- There is a conflict exactly if two definitions of one name are different versions. -/
theorem conflicts_ne_nil_iff (found : List ClassDefinition) :
    conflicts found ≠ [] ↔
      ∃ one ∈ found, ∃ other ∈ found, one.name = other.name ∧ one.id ≠ other.id := by
  constructor
  · intro h
    obtain ⟨conflict, hconflict⟩ := List.exists_mem_of_ne_nil _ h
    obtain ⟨⟨earlier, definition⟩, hpair, hfound⟩ := List.mem_filterMap.mp hconflict
    obtain ⟨front, back, rfl, hearlier⟩ := mem_withEarlier_iff.mp hpair
    obtain rfl : earlier = front := hearlier
    dsimp only [conflictWith?] at hfound
    split at hfound
    · cases hfound
    · next first hfirst =>
      split at hfound
      · cases hfound
      · next hid =>
        have hname : first.name = definition.name := by simpa using List.find?_some hfirst
        have hmem : first ∈ earlier := List.mem_of_find?_eq_some hfirst
        exact ⟨first, List.mem_append_left _ hmem, definition,
          List.mem_append_right _ List.mem_cons_self, hname, hid⟩
  · rintro ⟨one, hone, other, hother, hname, hid⟩ h
    obtain ⟨first, hfirst, honeId⟩ := exists_first_of_conflicts_eq_nil h hone
    obtain ⟨first', hfirst', hotherId⟩ := exists_first_of_conflicts_eq_nil h hother
    rw [hname, hfirst'] at hfirst
    obtain rfl := Option.some.inj hfirst
    exact hid (honeId.symm.trans hotherId)

/-! ## Catalogs -/

theorem catalogFrom_snd (catalog : Catalog) (noted : List ListingNotice) (listing : List Listed) :
    (catalogFrom catalog noted listing).2 =
      match (listing.filterMap Listed.conflict?).head? with
      | some conflict => .error conflict
      | none => .ok ((listing.filterMap Listed.definition?).foldl Catalog.insert catalog) := by
  induction listing generalizing catalog noted with
  | nil => rfl
  | cons listed rest ih =>
    cases listed with
    | definition definition => exact ih _ _
    | conflict conflict => rfl
    | notice notice => exact ih _ _

/-- Of the candidates, under either policy, a listing has the first of each name, in order. A
later one that is another version than the first of its name is a conflict where it stands,
which is an error under one policy and a notice under the other; any other is passed over.
Making the catalog stops with the first error. It does so exactly if two candidates of one
name are different versions, and never where conflicts are only noted. -/
theorem ofSightings_resolves (rules : Rules) (sightings : List Sighting) :
    let found := candidates rules sightings
    let listing (policy : ConflictPolicy) := ofSightings rules policy .empty sightings
    (∀ policy, (listing policy).filter Listed.settles =
      (withEarlier [] found).filterMap fun (earlier, definition) =>
        verdict policy earlier definition) ∧
    (∀ policy, (listing policy).filterMap Listed.definition? = firsts found) ∧
    (listing .fail).filterMap Listed.conflict? = conflicts found ∧
    (listing .fail).filterMap Listed.notedConflict? = [] ∧
    (listing .keepFirst).filterMap Listed.conflict? = [] ∧
    (listing .keepFirst).filterMap Listed.notedConflict? = conflicts found ∧
    (∀ conflict, (catalog (listing .fail)).2 = .error conflict ↔
      (conflicts found).head? = some conflict) ∧
    ((∃ conflict, (catalog (listing .fail)).2 = .error conflict) ↔
      ∃ one ∈ found, ∃ other ∈ found, one.name = other.name ∧ one.id ≠ other.id) ∧
    (catalog (listing .keepFirst)).2 = .ok (Catalog.ofList (firsts found)) := by
  intro found listing
  have hdefinitions (policy : ConflictPolicy) :
      (listing policy).filterMap Listed.definition? = firsts found :=
    definitions_ofSightings policy sightings
  have herrors (policy : ConflictPolicy) :
      (listing policy).filterMap Listed.conflict? =
        (conflicts found).filterMap fun conflict => (policy.report conflict).conflict? :=
    shown_ofSightings (fun _ => conflict?_eq_none) (fun _ => rfl) policy sightings
  have hnoted (policy : ConflictPolicy) :
      (listing policy).filterMap Listed.notedConflict? =
        (conflicts found).filterMap fun conflict => (policy.report conflict).notedConflict? :=
    shown_ofSightings (fun _ => notedConflict?_eq_none) (fun _ => rfl) policy sightings
  have hall : (listing .fail).filterMap Listed.conflict? = conflicts found :=
    (herrors .fail).trans List.filterMap_some
  have hnone : (listing .keepFirst).filterMap Listed.conflict? = [] :=
    (herrors .keepFirst).trans (List.filterMap_eq_nil_iff.mpr fun _ _ => rfl)
  have hcatalog (conflict : Conflict) : (catalog (listing .fail)).2 = .error conflict ↔
      (conflicts found).head? = some conflict := by
    rw [catalog, catalogFrom_snd, hall]
    cases (conflicts found).head? <;> simp
  refine ⟨fun policy => filter_settles_ofSightings knows_empty policy sightings, hdefinitions,
    hall, (hnoted .fail).trans (List.filterMap_eq_nil_iff.mpr fun _ _ => rfl), hnone,
    (hnoted .keepFirst).trans List.filterMap_some, hcatalog, ?_, ?_⟩
  · rw [← conflicts_ne_nil_iff, exists_congr hcatalog]
    cases conflicts found <;> simp
  · rw [catalog, catalogFrom_snd, hnone, hdefinitions]
    rfl

end Listing

end TestCoverage

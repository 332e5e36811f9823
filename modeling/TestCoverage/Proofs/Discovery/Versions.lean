import Mathlib
import TestCoverage.ClassFile.Minimal
import TestCoverage.Proofs.Checksum.Window
import TestCoverage.Proofs.Discovery.Listing

/-!
# Close versions of a class

A listing tells versions of a class apart by their identifiers only, which are checksums. Two class
files that differ within eight bytes in a row have different checksums, so they are never taken for
copies of each other.

* `Listing.report_mem_ofSightings`: a candidate with another identifier than the first one of its
  name is reported.
* `Listing.close_versions_conflict`: so of two close versions one is reported, and if one of them is
  the first of its name, then it is the other one.
-/

namespace TestCoverage

theorem ClassDefinition.id_of_read {location : Location} {bytes : Bytes}
    {definition : ClassDefinition} (h : ClassDefinition.read location bytes = .ok definition) :
    definition.id = ClassId.ofBytes definition.bytes := by
  unfold read at h
  cases hread : ClassFile.Header.read bytes with
  | error fault =>
    rw [hread] at h
    cases h
  | ok header =>
    rw [hread] at h
    obtain rfl := Except.ok.inj h
    rfl

namespace Listing

variable {rules : Rules} {sightings : List Sighting}

theorem id_of_mem_candidates {definition : ClassDefinition}
    (h : definition ∈ candidates rules sightings) :
    definition.id = ClassId.ofBytes definition.bytes := by
  obtain ⟨sighting, -, hcandidate⟩ := List.mem_filterMap.mp h
  cases sighting with
  | notice notice => cases hcandidate
  | classFile location bytes =>
    rw [candidate?] at hcandidate
    split at hcandidate
    · cases hread : ClassDefinition.read location bytes with
      | error fault =>
        rw [hread] at hcandidate
        cases hcandidate
      | ok found =>
        rw [hread] at hcandidate
        obtain rfl := Option.some.inj hcandidate
        exact ClassDefinition.id_of_read hread
    · cases hcandidate

/-- A candidate that is another version than the first one of its name is reported, whatever the
policy. -/
theorem report_mem_ofSightings {first definition : ClassDefinition}
    (hfirst : first? (candidates rules sightings) definition.name = some first)
    (hmem : definition ∈ candidates rules sightings) (hid : first.id ≠ definition.id)
    (policy : ConflictPolicy) :
    policy.report (.between first definition) ∈ ofSightings rules policy .empty sightings := by
  obtain ⟨front, back, hfound⟩ := List.append_of_mem hmem
  -- the first one of the name comes before the other version
  have hbefore : first? front definition.name = some first := by
    rw [hfound, first?_append] at hfirst
    cases hfront : first? front definition.name with
    | some other =>
      rw [hfront, Option.some_or] at hfirst
      exact hfirst
    | none =>
      have hself : first? (definition :: back) definition.name = some definition := by
        simp [first?]
      rw [hfront, Option.none_or, hself] at hfirst
      exact absurd (congrArg ClassDefinition.id (Option.some.inj hfirst)).symm hid
  have hverdict : verdict policy front definition =
      some (policy.report (.between first definition)) := by
    have hold : ¬ ∀ other ∈ front, other.name ≠ definition.name := by
      rw [← first?_eq_none_iff, hbefore]
      simp
    rw [verdict, if_neg hold, conflictWith?, hbefore]
    dsimp only
    rw [if_neg hid]
    rfl
  have hreport : policy.report (.between first definition) ∈
      (ofSightings rules policy .empty sightings).filter Listed.settles := by
    rw [filter_settles_ofSightings knows_empty]
    apply List.mem_filterMap.mpr
    exact ⟨(front, definition), mem_withEarlier_iff.mpr ⟨front, back, hfound, rfl⟩, hverdict⟩
  exact List.mem_of_mem_filter hreport

/-- Of two candidates of one name with different identifiers, one at least is another version than
the first of the name. -/
theorem exists_report_mem_ofSightings {one other : ClassDefinition}
    (hone : one ∈ candidates rules sightings) (hother : other ∈ candidates rules sightings)
    (hname : one.name = other.name) (hid : one.id ≠ other.id) (policy : ConflictPolicy) :
    ∃ first later, first? (candidates rules sightings) one.name = some first ∧
      (later = one ∨ later = other) ∧ first.id ≠ later.id ∧
        policy.report (.between first later) ∈ ofSightings rules policy .empty sightings := by
  cases hfirst : first? (candidates rules sightings) one.name with
  | none => exact absurd rfl (first?_eq_none_iff.mp hfirst one hone)
  | some first =>
    by_cases hsame : first.id = one.id
    · have hdiffer : first.id ≠ other.id := fun h => hid (hsame.symm.trans h)
      refine ⟨first, other, rfl, .inr rfl, hdiffer, ?_⟩
      exact report_mem_ofSightings (hname ▸ hfirst) hother hdiffer policy
    · exact ⟨first, one, rfl, .inl rfl, hsame, report_mem_ofSightings hfirst hone hsame policy⟩

/-- The check is linear in the state and the bytes together, and each byte takes different states to
different ones. So byte strings of one length that differ within eight places in a row have
different identifiers. If they are the class files of two candidates of one name then a conflict is
reported whatever the policy: one with the first candidate of the name, and if that is one of the
two then the conflict between them. -/
theorem close_versions_conflict :
    (∀ (state other : UInt64) (bytes others : Bytes), bytes.length = others.length →
      Checksum.update (state ^^^ other) (List.zipWith (· ^^^ ·) bytes others) =
        Checksum.update state bytes ^^^ Checksum.update other others) ∧
    (∀ b, Function.Injective (Checksum.updateByte · b)) ∧
    ∀ bytes others : Bytes, bytes.DifferWithin 8 others →
      ClassId.ofBytes bytes ≠ ClassId.ofBytes others ∧
      ∀ (rules : Rules) (policy : ConflictPolicy) (sightings : List Sighting),
        let found := candidates rules sightings
        let listing := ofSightings rules policy .empty sightings
        ∀ one ∈ found, ∀ other ∈ found, one.bytes = bytes → other.bytes = others →
          one.name = other.name →
          (first? found one.name = some one → policy.report (.between one other) ∈ listing) ∧
          ∃ first later, first? found one.name = some first ∧ (later = one ∨ later = other) ∧
            first.id ≠ later.id ∧ policy.report (.between first later) ∈ listing := by
  refine ⟨fun state other bytes others h => Checksum.update_xor h state other,
    Checksum.updateByte_injective, fun bytes others hclose => ?_⟩
  have hne : ClassId.ofBytes bytes ≠ ClassId.ofBytes others := by
    intro h
    exact Checksum.update_ne_of_differWithin hclose 0 (congrArg ClassId.bits h)
  refine ⟨hne, ?_⟩
  intro rules policy sightings found listing one hone other hother honeBytes hotherBytes hname
  have hid : one.id ≠ other.id := by
    rw [id_of_mem_candidates hone, id_of_mem_candidates hother, honeBytes, hotherBytes]
    exact hne
  refine ⟨fun hfirst => ?_, exists_report_mem_ofSightings hone hother hname hid policy⟩
  exact report_mem_ofSightings (hname ▸ hfirst) hother hid policy

/-- Two class files of one class that differ in the last character of a constant. -/
theorem close_versions_conflict_constant :
    let bytes := ClassFile.minimal "A" none "v1"
    let others := ClassFile.minimal "A" none "v2"
    bytes.DifferWithin 8 others ∧ ClassId.ofBytes bytes ≠ ClassId.ofBytes others ∧
      .conflict ⟨"A", ⟨"a.jar@A.class"⟩, ClassId.ofBytes bytes, ⟨"A.class"⟩, ClassId.ofBytes others⟩ ∈
        ofSightings .all .fail .empty
          [.classFile ⟨"a.jar@A.class"⟩ bytes, .classFile ⟨"A.class"⟩ others] := by
  have hclose : (ClassFile.minimal "A" none "v1").DifferWithin 8
      (ClassFile.minimal "A" none "v2") := by
    have hlength : (ClassFile.minimal "A" none "v2").length = 74 := by decide +kernel
    have hlength' : (ClassFile.minimal "A" none "v1").length = 74 := by decide +kernel
    have hinside : ∀ i < 74, (ClassFile.minimal "A" none "v1")[i]? ≠
        (ClassFile.minimal "A" none "v2")[i]? → 55 ≤ i ∧ i < 55 + 8 := by
      decide +kernel
    refine ⟨hlength'.trans hlength.symm, by decide +kernel, 55, fun i hi => ?_⟩
    by_cases hlt : i < 74
    · exact hinside i hlt hi
    · rw [List.getElem?_eq_none (by omega), List.getElem?_eq_none (by omega)] at hi
      exact absurd rfl hi
  have hfound : candidates .all
      [.classFile ⟨"a.jar@A.class"⟩ (ClassFile.minimal "A" none "v1"),
        .classFile ⟨"A.class"⟩ (ClassFile.minimal "A" none "v2")] =
      [⟨"A", none, ⟨"a.jar@A.class"⟩, ClassId.ofBytes (ClassFile.minimal "A" none "v1"),
          ClassFile.minimal "A" none "v1"⟩,
        ⟨"A", none, ⟨"A.class"⟩, ClassId.ofBytes (ClassFile.minimal "A" none "v2"),
          ClassFile.minimal "A" none "v2"⟩] := by
    decide +kernel
  obtain ⟨hne, hlisting⟩ := close_versions_conflict.2.2 _ _ hclose
  dsimp only
  generalize ClassFile.minimal "A" none "v1" = bytes at *
  generalize ClassFile.minimal "A" none "v2" = others at *
  have hreport := hlisting .all .fail
    [.classFile ⟨"a.jar@A.class"⟩ bytes, .classFile ⟨"A.class"⟩ others]
    ⟨"A", none, ⟨"a.jar@A.class"⟩, ClassId.ofBytes bytes, bytes⟩ (by simp [hfound])
    ⟨"A", none, ⟨"A.class"⟩, ClassId.ofBytes others, others⟩ (by simp [hfound]) rfl rfl rfl
  exact ⟨hclose, hne, hreport.1 (by rw [hfound]; rfl)⟩

end Listing

end TestCoverage

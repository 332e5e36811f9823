import Mathlib
import TestCoverage.Discovery.Survey

/-!
# Surveys as recursive enumerations

The class files in some content are enumerated by recursion: the content itself if it is a class
file, and if it is an archive the class files in its members, one member after the other
(`Survey.classFiles`). A survey comes upon the same class files with its roots, directories and
archives in a list.

* `Survey.drains_visit`: from where some content is looked at, a survey comes to where it goes on
  behind it, and has then sighted the class files of the content, whatever else it is in the middle
  of.
* `Survey.run_classFiles`: a survey whose archives are nested to some depth ends, and has then
  sighted the class files of its roots, each once and in the order of the enumeration.
-/

namespace TestCoverage

/-- The name and the data of a member that is looked at: a file that can be read and is not too
large. -/
def Member.content? : Member → Option (String × ByteArray)
  | .file name size (some data) =>
    if size ≤ Survey.largestMember ∧ data.size ≤ Survey.largestMember then some (name, data)
    else none
  | _ => none

/-- The class file that is sighted, if it is one. -/
def Sighting.classFile? : Sighting → Option (Location × Bytes)
  | .classFile location bytes => some (location, bytes)
  | .notice _ => none

namespace Survey

/-! ## The enumeration -/

/-- The names and the data of the members that are looked at, of all that an archive has. -/
def contents (opener : Opener) (medium : Archive.Medium) (data : ByteArray) :
    List (String × ByteArray) :=
  ((opener medium data).getD []).filterMap Member.content?

/-- The content is no archive, or its members are archives nested less deep. -/
def NestedWithin (opener : Opener) : Nat → Archive.Medium → ByteArray → Prop
  | 0, _, data => Content.ofFile data ≠ .archive
  | depth + 1, medium, data =>
    Content.ofFile data = .archive → ∀ content ∈ contents opener medium data,
      NestedWithin opener depth .memory content.2

instance NestedWithin.decidable (opener : Opener) :
    (depth : Nat) → (medium : Archive.Medium) → (data : ByteArray) →
      Decidable (NestedWithin opener depth medium data)
  | 0, _, data => inferInstanceAs (Decidable (Content.ofFile data ≠ .archive))
  | depth + 1, medium, data =>
    have (content : String × ByteArray) :
        Decidable (NestedWithin opener depth .memory content.2) :=
      NestedWithin.decidable opener depth .memory content.2
    inferInstanceAs (Decidable (Content.ofFile data = .archive →
      ∀ content ∈ contents opener medium data, NestedWithin opener depth .memory content.2))

/-- What a walk came upon is no archive that is nested deeper. -/
def WalkedWithin (opener : Opener) (depth : Nat) : FileTree.Walked → Prop
  | .file _ bytes => NestedWithin opener depth .disk bytes.toByteArray
  | _ => True

instance WalkedWithin.decidable (opener : Opener) (depth : Nat) (walked : FileTree.Walked) :
    Decidable (WalkedWithin opener depth walked) :=
  match walked with
  | .file _ bytes => NestedWithin.decidable opener depth .disk bytes.toByteArray
  | .unreadableFile _ | .unreadable => inferInstanceAs (Decidable True)

/-- The class files in some content, for which archives are gone into to a depth. -/
def classFiles (opener : Opener) :
    Nat → Archive.Medium → Location → ByteArray → List (Location × Bytes)
  | depth, medium, location, data =>
    match Content.ofFile data with
    | .classFile => [(location, data.data.toList)]
    | .unknown => []
    | .archive =>
      match depth with
      | 0 => []
      | depth + 1 =>
        (contents opener medium data).flatMap fun (name, inner) =>
          classFiles opener depth .memory (location.member name) inner

/-- The class files in what a walk came upon. -/
def walkedClassFiles (opener : Opener) (depth : Nat) : FileTree.Walked → List (Location × Bytes)
  | .file path bytes =>
    classFiles opener depth .disk (Location.ofPath path) bytes.toByteArray
  | _ => []

/-! ## Steps -/

/-- Steps lead from one state of the survey to another, and these class files are sighted on the
way. -/
inductive Sights (walker : Walker) (opener : Opener) :
    Survey → List (Location × Bytes) → Survey → Prop where
  | refl (survey : Survey) : Sights walker opener survey [] survey
  | step {survey after last : Survey} {sighting? : Option Sighting}
      {found : List (Location × Bytes)}
      (hnext : survey.next walker opener = some (sighting?, after))
      (h : Sights walker opener after found last) :
      Sights walker opener survey (sighting?.toList.filterMap Sighting.classFile? ++ found) last

variable {walker : Walker} {opener : Opener}

theorem Sights.trans {first middle last : Survey} {found more : List (Location × Bytes)}
    (hfound : Sights walker opener first found middle)
    (hmore : Sights walker opener middle more last) :
    Sights walker opener first (found ++ more) last := by
  induction hfound with
  | refl survey => exact hmore
  | step hnext _ ih =>
    rw [List.append_assoc]
    exact .step hnext (ih hmore)

/-- A step that sights nothing. -/
theorem Sights.silent {survey after last : Survey} {found : List (Location × Bytes)}
    (hnext : survey.next walker opener = some (none, after))
    (h : Sights walker opener after found last) : Sights walker opener survey found last :=
  .step hnext h

/-- What comes of a look is these class files: the one that it sights, or those on the way
through the archive that it goes into. -/
def Drains (walker : Walker) (opener : Opener) (looked : Option Sighting × List SurveyFrame)
    (found : List (Location × Bytes)) : Prop :=
  ∀ roots frames, ∃ inside,
    Sights walker opener ⟨roots, looked.2 ++ frames⟩ inside ⟨roots, frames⟩ ∧
      looked.1.toList.filterMap Sighting.classFile? ++ inside = found

theorem drains_classFile (location : Location) (bytes : Bytes) :
    Drains walker opener (some (.classFile location bytes), []) [(location, bytes)] :=
  fun _ _ => ⟨[], .refl _, rfl⟩

theorem drains_notice (notice : SurveyNotice) :
    Drains walker opener (some (.notice notice), []) [] :=
  fun _ _ => ⟨[], .refl _, rfl⟩

theorem drains_nothing : Drains walker opener (none, []) [] := fun _ _ => ⟨[], .refl _, rfl⟩

/-- After a look at the first thing in a frame the survey goes on with the rest of the frame. -/
theorem Drains.sights {looked : Option Sighting × List SurveyFrame}
    {found more : List (Location × Bytes)} {survey : Survey} {roots : List Bytes}
    {frame : SurveyFrame} {frames : List SurveyFrame} (h : Drains walker opener looked found)
    (hnext : survey.next walker opener = some (looked.1, ⟨roots, looked.2 ++ frame :: frames⟩))
    (hmore : Sights walker opener ⟨roots, frame :: frames⟩ more ⟨roots, frames⟩) :
    Sights walker opener survey (found ++ more) ⟨roots, frames⟩ := by
  obtain ⟨inside, hinside, rfl⟩ := h roots (frame :: frames)
  rw [List.append_assoc]
  exact .step hnext (hinside.trans hmore)

/-! ## Archives -/

theorem visitMember_of_content? {archive : Location} {position : Nat} {member : Member}
    {name : String} {inner : ByteArray} (h : member.content? = some (name, inner)) :
    visitMember opener archive position member =
      visit opener .memory (archive.member name) inner := by
  unfold Member.content? at h
  split at h
  · next size data =>
    split at h
    · next hsize =>
      obtain ⟨rfl, rfl⟩ := Prod.mk.inj (Option.some.inj h)
      unfold visitMember
      dsimp only
      rw [if_neg (Nat.not_lt.mpr hsize.1), if_neg (Nat.not_lt.mpr hsize.2)]
    · cases h
  · cases h

/-- A member that is not looked at is passed over. -/
theorem drains_visitMember_of_none {archive : Location} {position : Nat} {member : Member}
    (h : member.content? = none) :
    Drains walker opener (visitMember opener archive position member) [] := by
  cases member with
  | unreadable => exact drains_notice _
  | directory => exact drains_nothing
  | file name size data =>
    unfold visitMember
    dsimp only
    split
    · exact drains_notice _
    · next hsize =>
      cases data with
      | none => exact drains_notice _
      | some data =>
        dsimp only
        split
        · exact drains_notice _
        · next hdata => simp [Member.content?, Nat.not_lt.mp hsize, Nat.not_lt.mp hdata] at h

/-- An archive is gone through member by member if what is in its members is. -/
theorem sights_archive {depth : Nat} {location : Location} {members : List Member}
    (hinner : ∀ content ∈ members.filterMap Member.content?,
      Drains walker opener (visit opener .memory (location.member content.1) content.2)
        (classFiles opener depth .memory (location.member content.1) content.2))
    (position : Nat) (roots : List Bytes) (frames : List SurveyFrame) :
    Sights walker opener ⟨roots, .archive location position members :: frames⟩
      ((members.filterMap Member.content?).flatMap fun (name, inner) =>
        classFiles opener depth .memory (location.member name) inner) ⟨roots, frames⟩ := by
  induction members generalizing position with
  | nil => exact .silent rfl (.refl _)
  | cons member rest ih =>
    cases hcontent : member.content? with
    | none =>
      rw [List.filterMap_cons_none hcontent] at hinner ⊢
      exact (drains_visitMember_of_none hcontent).sights rfl (ih hinner (position + 1))
    | some content =>
      rw [List.filterMap_cons_some hcontent] at hinner ⊢
      obtain ⟨hmember, hrest⟩ := List.forall_mem_cons.mp hinner
      have hlooked : Drains walker opener (visitMember opener location position member)
          (classFiles opener depth .memory (location.member content.1) content.2) := by
        rw [visitMember_of_content? hcontent]
        exact hmember
      rw [List.flatMap_cons]
      exact hlooked.sights rfl (ih hrest (position + 1))

/-- Whatever a survey is in the middle of, it sights the class files of the content that it looks
at, and goes on behind it. -/
theorem drains_visit {depth : Nat} {medium : Archive.Medium} {data : ByteArray}
    (h : NestedWithin opener depth medium data) (location : Location) :
    Drains walker opener (visit opener medium location data)
      (classFiles opener depth medium location data) := by
  induction depth generalizing medium location data with
  | zero =>
    unfold visit classFiles
    cases hkind : Content.ofFile data with
    | classFile => exact drains_classFile location _
    | unknown => exact drains_nothing
    | archive => exact absurd hkind h
  | succ depth ih =>
    unfold visit classFiles
    cases hkind : Content.ofFile data with
    | classFile => exact drains_classFile location _
    | unknown => exact drains_nothing
    | archive =>
      dsimp only
      cases hopened : opener medium data with
      | none =>
        unfold contents
        rw [hopened]
        exact drains_notice _
      | some members =>
        have hinner := h hkind
        unfold contents at hinner ⊢
        rw [hopened, Option.getD_some] at hinner ⊢
        intro roots frames
        refine ⟨_, sights_archive ?_ 0 roots frames, rfl⟩
        exact fun content hcontent => ih (hinner content hcontent) (location.member content.1)

/-! ## Directories and roots -/

theorem drains_visitWalked {depth : Nat} {walked : FileTree.Walked}
    (h : WalkedWithin opener depth walked) :
    Drains walker opener (visitWalked opener walked) (walkedClassFiles opener depth walked) := by
  cases walked with
  | file path bytes => exact drains_visit h (Location.ofPath path)
  | unreadableFile path => exact drains_notice _
  | unreadable => exact drains_notice _

theorem sights_directory {depth : Nat} {rest : List FileTree.Walked}
    (h : ∀ walked ∈ rest, WalkedWithin opener depth walked) (roots : List Bytes)
    (frames : List SurveyFrame) :
    Sights walker opener ⟨roots, .directory rest :: frames⟩
      (rest.flatMap (walkedClassFiles opener depth)) ⟨roots, frames⟩ := by
  induction rest with
  | nil => exact .silent rfl (.refl _)
  | cons walked rest ih =>
    obtain ⟨hwalked, hrest⟩ := List.forall_mem_cons.mp h
    rw [List.flatMap_cons]
    exact (drains_visitWalked hwalked).sights rfl (ih hrest)

theorem sights_roots {depth : Nat} {roots : List Bytes}
    (h : ∀ root ∈ roots, ∀ walked ∈ walker root, WalkedWithin opener depth walked) :
    Sights walker opener (ofRoots roots)
      (roots.flatMap fun root => (walker root).flatMap (walkedClassFiles opener depth))
      ⟨[], []⟩ := by
  induction roots with
  | nil => exact .refl _
  | cons root rest ih =>
    obtain ⟨hroot, hrest⟩ := List.forall_mem_cons.mp h
    rw [List.flatMap_cons]
    exact .silent rfl ((sights_directory hroot rest []).trans (ih hrest))

/-! ## Runs -/

/-- A run takes the steps that lead to another state, and goes on from there. -/
theorem Sights.exists_steps {first last : Survey} {found : List (Location × Bytes)}
    (h : Sights walker opener first found last) :
    ∃ (steps : Nat) (sightings : List Sighting), sightings.filterMap Sighting.classFile? = found ∧
      ∀ more seen, runFrom walker opener (steps + more) seen first =
        runFrom walker opener more (sightings.reverse ++ seen) last := by
  induction h with
  | refl survey => exact ⟨0, [], rfl, fun more seen => by rw [Nat.zero_add]; rfl⟩
  | @step survey after last sighting? found hnext _ ih =>
    obtain ⟨steps, sightings, rfl, hrun⟩ := ih
    refine ⟨steps + 1, sighting?.toList ++ sightings, List.filterMap_append .., ?_⟩
    intro more seen
    have hseen : (sighting?.toList ++ sightings).reverse ++ seen =
        sightings.reverse ++ (sighting?.toList ++ seen) := by
      cases sighting? <;> simp
    rw [Nat.add_right_comm, runFrom, hnext, hseen]
    exact hrun more _

/-- More steps do not change the answer. -/
theorem runFrom_add {steps : Nat} {seen sightings : List Sighting} {survey : Survey}
    (h : runFrom walker opener steps seen survey = some sightings) (more : Nat) :
    runFrom walker opener (steps + more) seen survey = some sightings := by
  induction steps generalizing seen survey with
  | zero => cases h
  | succ steps ih =>
    rw [Nat.add_right_comm]
    rw [runFrom] at h ⊢
    split at h
    · exact h
    · exact ih h

/-- A survey through roots, files and archives that are nested to some depth ends if it is given
enough steps. What it has sighted then are the class files of the recursive enumeration, each once
and in its order: root after root, in each the files as the walk comes upon them, and in place of
an archive the class files in its members. -/
theorem run_classFiles (walker : Walker) (opener : Opener) (roots : List Bytes) (depth : Nat)
    (h : ∀ root ∈ roots, ∀ walked ∈ walker root, WalkedWithin opener depth walked) :
    (∃ steps, ∀ more, ∃ sightings,
      (ofRoots roots).run walker opener (steps + more) = some sightings) ∧
    ∀ steps sightings, (ofRoots roots).run walker opener steps = some sightings →
      sightings.filterMap Sighting.classFile? =
        roots.flatMap fun root => (walker root).flatMap (walkedClassFiles opener depth) := by
  obtain ⟨steps, sightings, hfound, hrun⟩ := (sights_roots h).exists_steps
  have hend (more : Nat) :
      (ofRoots roots).run walker opener (steps + (more + 1)) = some sightings := by
    have hlast := hrun (more + 1) []
    rwa [List.append_nil, runFrom, next, List.reverse_reverse] at hlast
  constructor
  · refine ⟨steps + 1, fun more => ⟨sightings, ?_⟩⟩
    rw [Nat.add_assoc, Nat.add_comm 1]
    exact hend more
  · intro taken answer hanswer
    have hmore := runFrom_add hanswer (steps + 1)
    rw [Nat.add_comm, Nat.add_assoc, Nat.add_comm 1] at hmore
    obtain ⟨rfl⟩ := Option.some.inj (hmore.symm.trans (hend taken))
    exact hfound

/-- An archive with the members `a.jar`, an archive with the class file `A.class`, and `B.class`,
all of them stored. -/
def nestedArchive : Bytes := [
  80, 75, 3, 4, 20, 0, 0, 0, 0, 0, 0, 0, 33, 0, 14, 239, 79, 18, 116, 0, 0, 0, 116, 0, 0, 0, 5, 0,
  0, 0, 97, 46, 106, 97, 114, 80, 75, 3, 4, 20, 0, 0, 0, 0, 0, 0, 0, 33, 0, 29, 87, 29, 181, 4, 0,
  0, 0, 4, 0, 0, 0, 7, 0, 0, 0, 65, 46, 99, 108, 97, 115, 115, 202, 254, 186, 190, 80, 75, 1, 2,
  20, 3, 20, 0, 0, 0, 0, 0, 0, 0, 33, 0, 29, 87, 29, 181, 4, 0, 0, 0, 4, 0, 0, 0, 7, 0, 0, 0, 0,
  0, 0, 0, 0, 0, 0, 0, 128, 1, 0, 0, 0, 0, 65, 46, 99, 108, 97, 115, 115, 80, 75, 5, 6, 0, 0, 0,
  0, 1, 0, 1, 0, 53, 0, 0, 0, 41, 0, 0, 0, 0, 0, 80, 75, 3, 4, 20, 0, 0, 0, 0, 0, 0, 0, 33, 0,
  149, 174, 182, 198, 5, 0, 0, 0, 5, 0, 0, 0, 7, 0, 0, 0, 66, 46, 99, 108, 97, 115, 115, 202, 254,
  186, 190, 1, 80, 75, 1, 2, 20, 3, 20, 0, 0, 0, 0, 0, 0, 0, 33, 0, 14, 239, 79, 18, 116, 0, 0, 0,
  116, 0, 0, 0, 5, 0, 0, 0, 0, 0, 0, 0, 0, 0, 0, 0, 128, 1, 0, 0, 0, 0, 97, 46, 106, 97, 114, 80,
  75, 1, 2, 20, 3, 20, 0, 0, 0, 0, 0, 0, 0, 33, 0, 149, 174, 182, 198, 5, 0, 0, 0, 5, 0, 0, 0, 7,
  0, 0, 0, 0, 0, 0, 0, 0, 0, 0, 0, 128, 1, 151, 0, 0, 0, 66, 46, 99, 108, 97, 115, 115, 80, 75, 5,
  6, 0, 0, 0, 0, 2, 0, 2, 0, 104, 0, 0, 0, 193, 0, 0, 0, 0, 0]

/-- The class files of an archive in an archive stand before what comes behind the archive. -/
theorem run_classFiles_nested_archive :
    let walker : Walker := fun root =>
      [.file (root ++ "/b.jar") nestedArchive, .unreadable,
        .file (root ++ "/c") [0xCA, 0xFE, 0xBA, 0xBE, 2]]
    let opener := Archive.members largestMember
    let roots : List Bytes := ["lib"]
    let classFiles : List (String × Bytes) :=
      [("lib/b.jar@a.jar@A.class", [0xCA, 0xFE, 0xBA, 0xBE]),
        ("lib/b.jar@B.class", [0xCA, 0xFE, 0xBA, 0xBE, 1]),
        ("lib/c", [0xCA, 0xFE, 0xBA, 0xBE, 2])]
    (∀ root ∈ roots, ∀ walked ∈ walker root, WalkedWithin opener 2 walked) ∧
      ∃ steps sightings, (ofRoots roots).run walker opener steps = some sightings ∧
        (sightings.filterMap Sighting.classFile?).map
          (fun (location, bytes) => (location.path, bytes)) = classFiles := by
  intro walker opener roots classFiles
  obtain ⟨hwithin, hpaths⟩ :
      (∀ root ∈ roots, ∀ walked ∈ walker root, WalkedWithin opener 2 walked) ∧
        (roots.flatMap fun root => (walker root).flatMap (walkedClassFiles opener 2)).map
          (fun (location, bytes) => (location.path, bytes)) = classFiles := by
    decide +kernel
  obtain ⟨⟨steps, hends⟩, hfound⟩ := run_classFiles walker opener roots 2 hwithin
  obtain ⟨sightings, hrun⟩ := hends 0
  exact ⟨hwithin, steps + 0, sightings, hrun, hfound _ _ hrun ▸ hpaths⟩

end Survey

end TestCoverage

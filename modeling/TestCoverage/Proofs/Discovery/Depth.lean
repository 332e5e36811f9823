import Mathlib
import TestCoverage.Proofs.Archive.Member
import TestCoverage.Proofs.Discovery.Survey

/-!
# How deep surveys go and when they end

A survey keeps one frame for the directory it is in and one for each archive that it is inside
of. So the frames say how deep archives are nested in each other, and nothing else bounds them.

* `Survey.length_frames_le`: where archives are nested to some depth, there is one frame more
  than that at most.
* `Survey.within_of_runFrom`: a survey that ends has found the archives nested to some depth.
* `Survey.reaches_of_not_rootsWithin`: where archives are nested deeper than that there are as many
  frames at some time.
* `Survey.not_nestedWithin_of_mem`: an archive that is among its own members is nested to no depth.

There are such archives (`Survey.selfContaining_mem_contents`), so a survey may go on without end.
-/

namespace TestCoverage

namespace Survey

variable {walker : Walker} {opener : Opener}

/-! ## Depths -/

theorem NestedWithin.succ {depth : Nat} {medium : Archive.Medium} {data : ByteArray}
    (h : NestedWithin opener depth medium data) : NestedWithin opener (depth + 1) medium data := by
  induction depth generalizing medium data with
  | zero => exact fun harchive => absurd harchive h
  | succ depth ih => exact fun harchive content hcontent => ih (h harchive content hcontent)

theorem NestedWithin.mono {depth deeper : Nat} {medium : Archive.Medium} {data : ByteArray}
    (h : NestedWithin opener depth medium data) (hle : depth ≤ deeper) :
    NestedWithin opener deeper medium data := by
  induction hle with
  | refl => exact h
  | step _ ih => exact ih.succ

theorem WalkedWithin.mono {depth deeper : Nat} {walked : FileTree.Walked}
    (h : WalkedWithin opener depth walked) (hle : depth ≤ deeper) :
    WalkedWithin opener deeper walked := by
  cases walked with
  | file path bytes => exact NestedWithin.mono h hle
  | unreadableFile path => trivial
  | unreadable => trivial

/-- What is below the roots is nested to a depth. -/
def RootsWithin (walker : Walker) (opener : Opener) (depth : Nat) (roots : List Bytes) : Prop :=
  ∀ root ∈ roots, ∀ walked ∈ walker root, WalkedWithin opener depth walked

/-- What is left of a directory or archive is nested to a depth. -/
def FrameWithin (opener : Opener) (depth : Nat) : SurveyFrame → Prop
  | .directory rest => ∀ walked ∈ rest, WalkedWithin opener depth walked
  | .archive _ _ rest =>
    ∀ content ∈ rest.filterMap Member.content?, NestedWithin opener depth .memory content.2

theorem RootsWithin.mono {depth deeper : Nat} {roots : List Bytes}
    (h : RootsWithin walker opener depth roots) (hle : depth ≤ deeper) :
    RootsWithin walker opener deeper roots :=
  fun root hroot walked hwalked => (h root hroot walked hwalked).mono hle

theorem FrameWithin.mono {depth deeper : Nat} {frame : SurveyFrame}
    (h : FrameWithin opener depth frame) (hle : depth ≤ deeper) :
    FrameWithin opener deeper frame := by
  cases frame with
  | directory rest => exact fun walked hwalked => (h walked hwalked).mono hle
  | archive location position rest => exact fun content hcontent => (h content hcontent).mono hle

/-- An archive that is among its own members is nested to no depth. -/
theorem not_nestedWithin_of_mem {name : String} {data : ByteArray}
    (harchive : Content.ofFile data = .archive)
    (hself : ∀ medium, (name, data) ∈ contents opener medium data) (depth : Nat)
    (medium : Archive.Medium) : ¬ NestedWithin opener depth medium data := by
  induction depth generalizing medium with
  | zero => exact fun h => h harchive
  | succ depth ih => exact fun h => ih .memory (h harchive (name, data) (hself medium))

/-! ## What a look goes into -/

/-- A look at some content goes into it if it is an archive that can be opened. What it goes into
is nested less deep by one. -/
theorem frames_visit (opener : Opener) (medium : Archive.Medium) (location : Location)
    (data : ByteArray) :
    ((visit opener medium location data).2 = [] ∧ NestedWithin opener 1 medium data) ∨
      ∃ members, (visit opener medium location data).2 = [.archive location 0 members] ∧
        Content.ofFile data = .archive ∧
          contents opener medium data = members.filterMap Member.content? := by
  unfold visit
  cases hkind : Content.ofFile data with
  | classFile | unknown => exact .inl ⟨rfl, fun harchive => by cases hkind.symm.trans harchive⟩
  | archive =>
    dsimp only
    cases hopened : opener medium data with
    | none =>
      have hnothing : contents opener medium data = [] := by
        rw [contents, hopened]
        rfl
      exact .inl ⟨rfl, fun _ => hnothing ▸ List.forall_mem_nil _⟩
    | some members =>
      refine .inr ⟨members, rfl, rfl, ?_⟩
      rw [contents, hopened]
      rfl

/-- The frames that a look adds to `below` others are within the depth that is left to them. -/
def InsideWithin (opener : Opener) (depth : Nat) (inside : List SurveyFrame) : Prop :=
  inside = [] ∨ ∃ left frame, depth = left + 1 ∧ inside = [frame] ∧ FrameWithin opener left frame

theorem insideWithin_visit {depth : Nat} {medium : Archive.Medium} {data : ByteArray}
    (h : NestedWithin opener depth medium data) (location : Location) :
    InsideWithin opener depth (visit opener medium location data).2 := by
  rcases frames_visit opener medium location data with
    ⟨hnone, -⟩ | ⟨members, hinside, harchive, hcontents⟩
  · exact .inl hnone
  · cases depth with
    | zero => exact absurd harchive h
    | succ left =>
      refine .inr ⟨left, _, rfl, hinside, fun content hcontent => h harchive content ?_⟩
      rwa [hcontents]

/-- If what a look goes into is nested to a depth, the content is nested to one more. -/
theorem nestedWithin_of_visit {depth : Nat} {medium : Archive.Medium} {location : Location}
    {data : ByteArray}
    (h : ∀ frame ∈ (visit opener medium location data).2, FrameWithin opener depth frame) :
    NestedWithin opener (depth + 1) medium data := by
  rcases frames_visit opener medium location data with
    ⟨-, hwithin⟩ | ⟨members, hinside, -, hcontents⟩
  · exact hwithin.mono (Nat.le_add_left 1 depth)
  · intro _ content hcontent
    rw [hinside] at h
    rw [hcontents] at hcontent
    exact h _ List.mem_cons_self content hcontent

theorem insideWithin_visitWalked {depth : Nat} {walked : FileTree.Walked}
    (h : WalkedWithin opener depth walked) :
    InsideWithin opener depth (visitWalked opener walked).2 := by
  cases walked with
  | file path bytes => exact insideWithin_visit h (Location.ofPath path)
  | unreadableFile path => exact .inl rfl
  | unreadable => exact .inl rfl

theorem walkedWithin_of_visitWalked {depth : Nat} {walked : FileTree.Walked}
    (h : ∀ frame ∈ (visitWalked opener walked).2, FrameWithin opener depth frame) :
    WalkedWithin opener (depth + 1) walked := by
  cases walked with
  | file path bytes => exact nestedWithin_of_visit h
  | unreadableFile path => trivial
  | unreadable => trivial

theorem content?_file {name : String} {size : Nat} {data : ByteArray} (hsize : size ≤ largestMember)
    (hdata : data.size ≤ largestMember) :
    (Member.file name size (some data)).content? = some (name, data) :=
  if_pos ⟨hsize, hdata⟩

/-- A member that is not looked at is not gone into. -/
theorem frames_visitMember_of_none {archive : Location} {position : Nat} {member : Member}
    (h : member.content? = none) : (visitMember opener archive position member).2 = [] := by
  cases member with
  | unreadable | directory => rfl
  | file name size data =>
    unfold visitMember
    dsimp only
    split
    · rfl
    · next hsize =>
      cases data with
      | none => rfl
      | some data =>
        dsimp only
        split
        · rfl
        · next hdata =>
          rw [content?_file (Nat.not_lt.mp hsize) (Nat.not_lt.mp hdata)] at h
          cases h

theorem frameWithin_archive_cons_iff {depth position next : Nat} {location : Location}
    {member : Member} {rest : List Member} :
    FrameWithin opener depth (.archive location position (member :: rest)) ↔
      (∀ content, member.content? = some content →
        NestedWithin opener depth .memory content.2) ∧
        FrameWithin opener depth (.archive location next rest) := by
  unfold FrameWithin
  cases hcontent : member.content? with
  | none => simp [List.filterMap_cons_none hcontent]
  | some content => simp [List.filterMap_cons_some hcontent]

/-! ## Steps -/

/-- A step looks at the first thing in a frame: it goes inside, or not, and the rest of the frame
is left. -/
structure Looks (opener : Opener) (frame : SurveyFrame) (inside : List SurveyFrame)
    (rest : SurveyFrame) : Prop where
  within : ∀ depth, FrameWithin opener depth frame →
    InsideWithin opener depth inside ∧ FrameWithin opener depth rest
  of_within : ∀ depth, (∀ frame ∈ inside, FrameWithin opener depth frame) →
    FrameWithin opener depth rest → FrameWithin opener (depth + 1) frame

theorem looks_directory (walked : FileTree.Walked) (rest : List FileTree.Walked) :
    Looks opener (.directory (walked :: rest)) (visitWalked opener walked).2 (.directory rest) where
  within _ h :=
    have ⟨hwalked, hrest⟩ := List.forall_mem_cons.mp h
    ⟨insideWithin_visitWalked hwalked, hrest⟩
  of_within _ hinside hrest :=
    List.forall_mem_cons.mpr ⟨walkedWithin_of_visitWalked hinside,
      fun walked hwalked => (hrest walked hwalked).mono (Nat.le_succ _)⟩

theorem looks_archive (location : Location) (position : Nat) (member : Member)
    (rest : List Member) :
    Looks opener (.archive location position (member :: rest))
      (visitMember opener location position member).2 (.archive location (position + 1) rest) where
  within _ h := by
    obtain ⟨hmember, hrest⟩ := frameWithin_archive_cons_iff.mp h
    refine ⟨?_, hrest⟩
    cases hcontent : member.content? with
    | none => exact .inl (frames_visitMember_of_none hcontent)
    | some content =>
      rw [visitMember_of_content? hcontent]
      exact insideWithin_visit (hmember content hcontent) _
  of_within _ hinside hrest := by
    refine frameWithin_archive_cons_iff.mpr ⟨fun content hcontent => ?_,
      hrest.mono (Nat.le_succ _)⟩
    rw [visitMember_of_content? hcontent] at hinside
    exact nestedWithin_of_visit hinside

/-- What a step can do: it begins a root, it leaves a frame that is at its end, or it looks at
the first thing in the innermost frame. -/
theorem next_cases {survey after : Survey} {sighting? : Option Sighting}
    (h : survey.next walker opener = some (sighting?, after)) :
    (∃ root roots, survey = ⟨root :: roots, []⟩ ∧ after = ⟨roots, [.directory (walker root)]⟩) ∨
    (∃ roots frame frames, survey = ⟨roots, frame :: frames⟩ ∧ after = ⟨roots, frames⟩ ∧
      ∀ depth, FrameWithin opener depth frame) ∨
    ∃ roots frame frames inside rest, survey = ⟨roots, frame :: frames⟩ ∧
      after = ⟨roots, inside ++ rest :: frames⟩ ∧ Looks opener frame inside rest := by
  obtain ⟨roots, frames⟩ := survey
  unfold next at h
  dsimp only at h
  split at h
  · split at h
    · cases h
    · next root roots =>
      obtain ⟨-, rfl⟩ := Prod.mk.inj (Option.some.inj h)
      exact .inl ⟨root, roots, rfl, rfl⟩
  · obtain ⟨-, rfl⟩ := Prod.mk.inj (Option.some.inj h)
    exact .inr (.inl ⟨roots, _, _, rfl, rfl, fun _ => List.forall_mem_nil _⟩)
  · obtain ⟨-, rfl⟩ := Prod.mk.inj (Option.some.inj h)
    exact .inr (.inr ⟨roots, _, _, _, _, rfl, rfl, looks_directory _ _⟩)
  · obtain ⟨-, rfl⟩ := Prod.mk.inj (Option.some.inj h)
    exact .inr (.inl ⟨roots, _, _, rfl, rfl, fun _ => List.forall_mem_nil _⟩)
  · obtain ⟨-, rfl⟩ := Prod.mk.inj (Option.some.inj h)
    exact .inr (.inr ⟨roots, _, _, _, _, rfl, rfl, looks_archive _ _ _ _⟩)

/-- Only a survey that is through with everything takes no step. -/
theorem eq_of_next_eq_none {survey : Survey} (h : survey.next walker opener = none) :
    survey = ⟨[], []⟩ := by
  obtain ⟨roots, frames⟩ := survey
  unfold next at h
  dsimp only at h
  split at h
  · split at h
    · rfl
    · cases h
  all_goals cases h

/-! ## Surveys that end -/

/-- Everything that a survey has still to go through is nested to a depth. -/
structure Within (walker : Walker) (opener : Opener) (depth : Nat) (survey : Survey) : Prop where
  roots : RootsWithin walker opener depth survey.roots
  frames : ∀ frame ∈ survey.frames, FrameWithin opener depth frame

/-- What is nested to a depth after a step was nested to one more before it. -/
theorem Within.of_next {depth : Nat} {survey after : Survey} {sighting? : Option Sighting}
    (hnext : survey.next walker opener = some (sighting?, after))
    (h : Within walker opener depth after) : Within walker opener (depth + 1) survey := by
  have hle : depth ≤ depth + 1 := Nat.le_succ depth
  rcases next_cases hnext with ⟨root, roots, rfl, rfl⟩ | ⟨roots, frame, frames, rfl, rfl, hframe⟩ |
    ⟨roots, frame, frames, inside, rest, rfl, rfl, hlooks⟩
  · have hroot : ∀ walked ∈ walker root, WalkedWithin opener depth walked :=
      h.frames _ List.mem_cons_self
    exact ⟨RootsWithin.mono (List.forall_mem_cons.mpr ⟨hroot, h.roots⟩) hle,
      List.forall_mem_nil _⟩
  · exact ⟨h.roots.mono hle, List.forall_mem_cons.mpr ⟨hframe _,
      fun other hother => (h.frames other hother).mono hle⟩⟩
  · obtain ⟨hinside, hrest, hframes⟩ : (∀ frame ∈ inside, FrameWithin opener depth frame) ∧
        FrameWithin opener depth rest ∧ ∀ frame ∈ frames, FrameWithin opener depth frame := by
      obtain ⟨hinside, hothers⟩ := List.forall_mem_append.mp h.frames
      exact ⟨hinside, List.forall_mem_cons.mp hothers⟩
    exact ⟨h.roots.mono hle, List.forall_mem_cons.mpr ⟨hlooks.of_within depth hinside hrest,
      fun other hother => (hframes other hother).mono hle⟩⟩

/-- A survey that ends has found everything nested to some depth. -/
theorem within_of_runFrom {steps : Nat} {seen sightings : List Sighting} {survey : Survey}
    (h : runFrom walker opener steps seen survey = some sightings) :
    Within walker opener steps survey := by
  induction steps generalizing seen survey with
  | zero => cases h
  | succ steps ih =>
    rw [runFrom] at h
    cases hnext : survey.next walker opener with
    | none =>
      rw [eq_of_next_eq_none hnext]
      exact ⟨fun root hroot => absurd hroot List.not_mem_nil, List.forall_mem_nil _⟩
    | some answer =>
      obtain ⟨sighting?, after⟩ := answer
      rw [hnext] at h
      exact (ih h).of_next hnext

/-- A survey that comes to its end ends when it is given the steps. -/
theorem run_of_sights {survey : Survey} {found : List (Location × Bytes)}
    (h : Sights walker opener survey found ⟨[], []⟩) :
    ∃ steps sightings, survey.run walker opener steps = some sightings := by
  obtain ⟨steps, sightings, -, hrun⟩ := h.exists_steps
  exact ⟨steps + 1, _, hrun 1 []⟩

/-! ## The number of frames -/

/-- Each frame is nested to the depth that the frames below it leave. -/
def FramesWithin (opener : Opener) (depth : Nat) : List SurveyFrame → Prop
  | [] => True
  | frame :: frames =>
    frames.length ≤ depth ∧ FrameWithin opener (depth - frames.length) frame ∧
      FramesWithin opener depth frames

theorem FramesWithin.length_le {depth : Nat} {frames : List SurveyFrame}
    (h : FramesWithin opener depth frames) : frames.length ≤ depth + 1 := by
  cases frames with
  | nil => exact Nat.zero_le _
  | cons frame frames => exact Nat.succ_le_succ h.1

theorem FramesWithin.next {depth : Nat} {survey after : Survey} {sighting? : Option Sighting}
    (hnext : survey.next walker opener = some (sighting?, after))
    (hroots : RootsWithin walker opener depth survey.roots)
    (h : FramesWithin opener depth survey.frames) :
    RootsWithin walker opener depth after.roots ∧ FramesWithin opener depth after.frames := by
  rcases next_cases hnext with ⟨root, roots, rfl, rfl⟩ | ⟨roots, frame, frames, rfl, rfl, -⟩ |
    ⟨roots, frame, frames, inside, rest, rfl, rfl, hlooks⟩
  · obtain ⟨hroot, hrest⟩ := List.forall_mem_cons.mp hroots
    exact ⟨hrest, Nat.zero_le depth, hroot, trivial⟩
  · exact ⟨hroots, h.2.2⟩
  · obtain ⟨hlength, hframe, hframes⟩ := h
    obtain ⟨hinside, hrest⟩ := hlooks.within _ hframe
    refine ⟨hroots, ?_⟩
    rcases hinside with rfl | ⟨left, inner, hleft, rfl, hinner⟩
    · exact ⟨hlength, hrest, hframes⟩
    · have hdepth : depth - (rest :: frames).length = left := by
        rw [List.length_cons]
        omega
      have hinside : (rest :: frames).length ≤ depth := by
        rw [List.length_cons]
        omega
      exact ⟨hinside, hdepth ▸ hinner, hlength, hrest, hframes⟩

/-- Where archives are nested to a depth there are never more than that many frames and one for the
directory. -/
theorem length_frames_le {depth : Nat} {first last : Survey} {found : List (Location × Bytes)}
    (hsights : Sights walker opener first found last)
    (hroots : RootsWithin walker opener depth first.roots)
    (h : FramesWithin opener depth first.frames) : last.frames.length ≤ depth + 1 := by
  induction hsights with
  | refl survey => exact h.length_le
  | step hnext _ ih =>
    obtain ⟨hroots, hframes⟩ := h.next hnext hroots
    exact ih hroots hframes

/-! ## Surveys without end -/

/-- The survey comes to have so many frames. -/
def Reaches (walker : Walker) (opener : Opener) (count : Nat) (survey : Survey) : Prop :=
  ∃ found last, Sights walker opener survey found last ∧ count ≤ last.frames.length

theorem Reaches.of_sights {count : Nat} {first last : Survey} {found : List (Location × Bytes)}
    (h : Reaches walker opener count last) (hsights : Sights walker opener first found last) :
    Reaches walker opener count first := by
  obtain ⟨more, deep, hmore, hcount⟩ := h
  exact ⟨found ++ more, deep, hsights.trans hmore, hcount⟩

theorem Reaches.of_next {count : Nat} {survey after : Survey} {sighting? : Option Sighting}
    (h : Reaches walker opener count after)
    (hnext : survey.next walker opener = some (sighting?, after)) :
    Reaches walker opener count survey :=
  h.of_sights (.step hnext (.refl after))

/-- A look that drains leads to the rest of the frame. -/
theorem Reaches.of_drains {count : Nat} {looked : Option Sighting × List SurveyFrame}
    {found : List (Location × Bytes)} {survey : Survey} {roots : List Bytes}
    {frames : List SurveyFrame} (hrest : Reaches walker opener count ⟨roots, frames⟩)
    (h : Drains walker opener looked found)
    (hnext : survey.next walker opener = some (looked.1, ⟨roots, looked.2 ++ frames⟩)) :
    Reaches walker opener count survey := by
  obtain ⟨inside, hinside, -⟩ := h roots frames
  exact (hrest.of_sights hinside).of_next hnext

/-- An archive is gone through up to the first member that is nested too deep. -/
theorem reaches_archive {depth : Nat} {location : Location} {members : List Member}
    (hvisit : ∀ data, ¬ NestedWithin opener depth .memory data → ∀ location roots frames,
      Reaches walker opener (frames.length + depth)
        ⟨roots, (visit opener .memory location data).2 ++ frames⟩)
    (h : ∃ content ∈ members.filterMap Member.content?,
      ¬ NestedWithin opener depth .memory content.2)
    (position : Nat) (roots : List Bytes) (frames : List SurveyFrame) :
    Reaches walker opener (frames.length + 1 + depth)
      ⟨roots, .archive location position members :: frames⟩ := by
  induction members generalizing position with
  | nil =>
    obtain ⟨content, hcontent, -⟩ := h
    exact absurd hcontent List.not_mem_nil
  | cons member rest ih =>
    cases hmember : member.content? with
    | none =>
      rw [List.filterMap_cons_none hmember] at h
      exact (ih h (position + 1)).of_drains (drains_visitMember_of_none hmember) rfl
    | some content =>
      have hlooked : visitMember opener location position member =
          visit opener .memory (location.member content.1) content.2 :=
        visitMember_of_content? hmember
      by_cases hwithin : NestedWithin opener depth .memory content.2
      · rw [List.filterMap_cons_some hmember] at h
        obtain ⟨deep, hdeep, hnot⟩ := h
        have hrest : deep ∈ rest.filterMap Member.content? :=
          (List.mem_cons.mp hdeep).resolve_left fun heq => hnot (heq ▸ hwithin)
        have hdrains := @drains_visit walker opener depth .memory content.2 hwithin
          (location.member content.1)
        rw [← hlooked] at hdrains
        exact (ih ⟨deep, hrest, hnot⟩ (position + 1)).of_drains hdrains rfl
      · have hreaches := hvisit content.2 hwithin (location.member content.1) roots
          (.archive location (position + 1) rest :: frames)
        rw [← hlooked] at hreaches
        exact hreaches.of_next rfl

/-- Looking at content that is not nested to a depth leads to that many more frames. -/
theorem reaches_visit {depth : Nat} {medium : Archive.Medium} {data : ByteArray}
    (h : ¬ NestedWithin opener depth medium data) (location : Location) (roots : List Bytes)
    (frames : List SurveyFrame) :
    Reaches walker opener (frames.length + depth)
      ⟨roots, (visit opener medium location data).2 ++ frames⟩ := by
  induction depth generalizing medium data location roots frames with
  | zero =>
    refine ⟨[], _, .refl _, ?_⟩
    rw [List.length_append]
    omega
  | succ depth ih =>
    rcases frames_visit opener medium location data with
      ⟨-, hwithin⟩ | ⟨members, hinside, -, hcontents⟩
    · exact absurd (hwithin.mono (Nat.le_add_left 1 depth)) h
    · have hdeep : ∃ content ∈ members.filterMap Member.content?,
          ¬ NestedWithin opener depth .memory content.2 := by
        by_contra hnone
        push Not at hnone
        exact h fun _ content hcontent => hnone content (hcontents ▸ hcontent)
      rw [hinside, ← Nat.add_assoc, Nat.add_right_comm]
      exact reaches_archive (fun _ hdata => ih hdata) hdeep 0 roots frames

theorem reaches_directory {depth : Nat} {rest : List FileTree.Walked}
    (h : ¬ FrameWithin opener depth (.directory rest)) (roots : List Bytes) :
    Reaches walker opener (depth + 1) ⟨roots, [.directory rest]⟩ := by
  induction rest with
  | nil => exact absurd (List.forall_mem_nil _) h
  | cons walked rest ih =>
    by_cases hwithin : WalkedWithin opener depth walked
    · have hrest : ¬ FrameWithin opener depth (.directory rest) :=
        fun hrest => h (List.forall_mem_cons.mpr ⟨hwithin, hrest⟩)
      exact (ih hrest).of_drains (drains_visitWalked hwithin) rfl
    · cases walked with
      | file path bytes =>
        have hreaches := @reaches_visit walker opener depth .disk bytes.toByteArray hwithin
          (Location.ofPath path) roots [.directory rest]
        rw [Nat.add_comm]
        exact hreaches.of_next rfl
      | unreadableFile path => exact absurd trivial hwithin
      | unreadable => exact absurd trivial hwithin

/-- Where archives are nested deeper than a depth there are more frames than that at some time. -/
theorem reaches_of_not_rootsWithin {depth : Nat} {roots : List Bytes}
    (h : ¬ RootsWithin walker opener depth roots) :
    Reaches walker opener (depth + 1) (ofRoots roots) := by
  induction roots with
  | nil => exact absurd (fun root hroot => absurd hroot List.not_mem_nil) h
  | cons root roots ih =>
    have hbegin : (ofRoots (root :: roots)).next walker opener =
        some (none, ⟨roots, [.directory (walker root)]⟩) := rfl
    by_cases hroot : FrameWithin opener depth (.directory (walker root))
    · have hrest : ¬ RootsWithin walker opener depth roots :=
        fun hrest => h (List.forall_mem_cons.mpr ⟨hroot, hrest⟩)
      exact ((ih hrest).of_sights (sights_directory hroot roots [])).of_next hbegin
    · exact (reaches_directory hroot roots).of_next hbegin

theorem run_eq_none {roots : List Bytes} (h : ∀ depth, ¬ RootsWithin walker opener depth roots)
    (steps : Nat) : (ofRoots roots).run walker opener steps = none := by
  cases hrun : (ofRoots roots).run walker opener steps with
  | none => rfl
  | some sightings => exact absurd (within_of_runFrom hrun).roots (h steps)

theorem walk_file (bytes : Bytes) :
    (FileTree.directory [("r.zip", .file bytes)]).walk "r.zip" = [.file "r.zip" bytes] := by
  have hlocate : (FileTree.directory [("r.zip", .file bytes)]).locate "r.zip" =
      .ok ([("r.zip" : Bytes)], FileTree.linkAllowance) := by
    have hnames : FileTree.names "r.zip" = [("r.zip" : Bytes)] := by decide +kernel
    have hgood : FileTree.isGoodName "r.zip" = true := by decide +kernel
    rw [FileTree.locate, if_neg (by decide +kernel), if_neg (by decide +kernel), hnames,
      FileTree.follow, if_neg (by decide), if_neg (by decide), hgood]
    rfl
  rw [FileTree.walk, hlocate]
  rfl

/-- A survey that opens the archive finds it among its own members, on disk and in memory. -/
theorem selfContaining_mem_contents (medium : Archive.Medium) :
    ("r.zip", ⟨⟨Archive.selfContaining⟩⟩) ∈
      contents (Archive.members largestMember) medium ⟨⟨Archive.selfContaining⟩⟩ := by
  have hsize : Archive.selfContaining.length ≤ largestMember := by decide +kernel
  have hcontent := @content?_file "r.zip" 414 ⟨⟨Archive.selfContaining⟩⟩ (by decide) hsize
  have hmembers : Archive.members largestMember medium ⟨⟨Archive.selfContaining⟩⟩ =
      some [.file "r.zip" 414 (some ⟨⟨Archive.selfContaining⟩⟩)] :=
    Archive.members_selfContaining medium
  rw [contents, hmembers, Option.getD_some, List.filterMap_cons_some hcontent]
  exact List.mem_cons_self

/-- A survey ends if and only if archives are nested to some depth. Then it never has more frames
than that depth and one for the directory; otherwise it comes to have more than any number. -/
theorem run_ends_iff (walker : Walker) (opener : Opener) (roots : List Bytes) :
    ((∃ steps sightings, (ofRoots roots).run walker opener steps = some sightings) ↔
      ∃ depth, RootsWithin walker opener depth roots) ∧
    (∀ depth, RootsWithin walker opener depth roots → ∀ found survey,
      Sights walker opener (ofRoots roots) found survey → survey.frames.length ≤ depth + 1) ∧
    ((∀ depth, ¬ RootsWithin walker opener depth roots) → ∀ bound, ∃ found survey,
      Sights walker opener (ofRoots roots) found survey ∧ bound < survey.frames.length) := by
  refine ⟨⟨?_, ?_⟩, fun depth h found survey hsights => ?_, fun h bound => ?_⟩
  · rintro ⟨steps, sightings, hrun⟩
    exact ⟨steps, (within_of_runFrom hrun).roots⟩
  · rintro ⟨depth, h⟩
    exact run_of_sights (sights_roots h)
  · exact length_frames_le hsights h trivial
  · exact reaches_of_not_rootsWithin (h bound)

/-- There is an archive of 414 bytes that a survey goes into without end. -/
theorem run_selfContaining :
    let tree : FileTree := .directory [("r.zip", .file Archive.selfContaining)]
    let opener := Archive.members largestMember
    (∀ steps, (ofRoots ["r.zip"]).run tree.walk opener steps = none) ∧
      ∀ bound, ∃ found survey, Sights tree.walk opener (ofRoots ["r.zip"]) found survey ∧
        bound < survey.frames.length := by
  intro tree opener
  have hdata : Archive.selfContaining.toByteArray = ⟨⟨Archive.selfContaining⟩⟩ :=
    ByteArray.ext List.data_toByteArray
  have harchive : Content.ofFile ⟨⟨Archive.selfContaining⟩⟩ = .archive := by decide +kernel
  have hdeep (depth : Nat) : ¬ RootsWithin tree.walk opener depth ["r.zip"] := by
    intro h
    have hwithin := h "r.zip" List.mem_cons_self (.file "r.zip" Archive.selfContaining)
      (walk_file _ ▸ List.mem_cons_self)
    exact not_nestedWithin_of_mem harchive selfContaining_mem_contents depth .disk
      (hdata ▸ hwithin)
  exact ⟨run_eq_none hdeep, fun bound => reaches_of_not_rootsWithin (hdeep bound)⟩

end Survey

end TestCoverage

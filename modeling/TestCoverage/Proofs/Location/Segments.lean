import Mathlib
import TestCoverage.Location
import TestCoverage.Proofs.Text.Utf8

/-!
# The segments of a location

A location is built from the path of a file on disk and the names of members, one for each archive
that is gone into (`Location.chain`). Its text is that of the path and the names with the mark
between them (`Location.path_chain`), and its segments are the pieces between the marks. These are
the path and the names again if the path is text and no mark stands in any of them, and only then:
a path may have bytes that are not UTF-8 and are lost, and the mark is an ordinary character of file
names, so that nothing sets apart the marks that were put between.

* `Text.split_append`, `Text.split_eq_self_iff`: cutting at separators.
* `Location.segments_chain`: when a location determines where its file is.
* `Location.chain_marked_path`: a file on disk whose location is that of a member of an archive.
-/

namespace TestCoverage

/-! ## Cutting at separators -/

namespace Text

variable {α : Type} {isSeparator : α → Bool}

theorem split_append {c : α} (hc : isSeparator c = true) (front back : List α) :
    split isSeparator (front ++ c :: back) = split isSeparator front ++ split isSeparator back := by
  induction front with
  | nil =>
    show split isSeparator (c :: back) = [] :: split isSeparator back
    rw [split, if_pos hc]
  | cons first rest ih =>
    rw [List.cons_append, split, split, ih]
    split
    · rfl
    · obtain ⟨piece, others, hrest⟩ :=
        List.exists_cons_of_ne_nil (split_ne_nil isSeparator rest)
      rw [hrest]
      rfl

/-- No separator stands in a piece. -/
theorem not_isSeparator_of_mem_split {text piece : List α} (h : piece ∈ split isSeparator text) :
    ∀ c ∈ piece, isSeparator c = false := by
  induction text generalizing piece with
  | nil =>
    obtain rfl := List.mem_singleton.mp h
    intro c hc
    cases hc
  | cons first rest ih =>
    rw [split] at h
    split at h
    · rcases List.mem_cons.mp h with rfl | h
      · intro c hc
        cases hc
      · exact ih h
    · next hfirst =>
      obtain ⟨next, others, hrest⟩ :=
        List.exists_cons_of_ne_nil (split_ne_nil isSeparator rest)
      rw [hrest] at h ih
      rcases List.mem_cons.mp h with rfl | h
      · intro c hc
        rcases List.mem_cons.mp hc with rfl | hc
        · exact Bool.eq_false_of_not_eq_true hfirst
        · exact ih List.mem_cons_self c hc
      · exact ih (List.mem_cons_of_mem _ h)

theorem split_eq_self_iff {text : List α} :
    split isSeparator text = [text] ↔ ∀ c ∈ text, isSeparator c = false := by
  constructor
  · intro h
    exact not_isSeparator_of_mem_split (h ▸ List.mem_singleton_self text)
  · intro h
    induction text with
    | nil => rfl
    | cons first rest ih =>
      obtain ⟨hfirst, hrest⟩ := List.forall_mem_cons.mp h
      rw [split, if_neg (by simp [hfirst]), ih hrest]

end Text

namespace Location

/-! ## Separators in bytes -/

/-- The bytes with `/` for each backslash. -/
def slashed (bytes : Bytes) : Bytes := bytes.map fun b => if b = 0x5C then 0x2F else b

theorem slashed_encodeChar (c : Char) :
    slashed (Text.Utf8.encodeChar c) =
      Text.Utf8.encodeChar (if c = '\\' then '/' else c) := by
  split
  · next hc =>
    subst hc
    decide
  · next hc =>
    have hsame : ∀ b ∈ Text.Utf8.encodeChar c, (if b = 0x5C then 0x2F else b) = b := by
      intro b hb
      split
      · next hbyte =>
        subst hbyte
        have hchar := Text.Utf8.eq_of_mem_encodeChar hb (by decide)
        exact absurd hchar hc
      · rfl
    exact (List.map_congr_left hsame).trans (List.map_id _)

/-- It is the same to exchange characters and to exchange their bytes. -/
theorem ofString_normalize (text : String) :
    Bytes.ofString (normalize text) = slashed (Bytes.ofString text) := by
  rw [normalize, Bytes.ofString, String.toList_ofList, Bytes.ofString, Text.Utf8.encode,
    Text.Utf8.encode, slashed, List.map_flatMap, List.flatMap_map]
  exact List.flatMap_congr fun c _ => (slashed_encodeChar c).symm

/-- A slash may have been a backslash, and all other bytes are what they were. -/
theorem exists_encodeChar_of_slashed {bytes : Bytes} {c : Char}
    (h : slashed bytes = Text.Utf8.encodeChar c) :
    ∃ original, bytes = Text.Utf8.encodeChar original := by
  by_cases hc : c = '/'
  · subst hc
    obtain ⟨b, rfl, hb⟩ := List.map_eq_singleton_iff.mp h
    by_cases hbyte : b = 0x5C
    · exact ⟨'\\', congrArg ([·]) hbyte⟩
    · rw [if_neg hbyte] at hb
      exact ⟨'/', congrArg ([·]) hb⟩
  · have hsame : ∀ b ∈ bytes, (if b = 0x5C then 0x2F else b) = b := by
      intro b hb
      split
      · next hbyte =>
        have hslash : (0x2F : UInt8) ∈ Text.Utf8.encodeChar c := by
          rw [← h]
          exact List.mem_map.mpr ⟨b, hb, if_pos hbyte⟩
        exact absurd (Text.Utf8.eq_of_mem_encodeChar hslash (by decide)) hc
      · rfl
    exact ⟨c, h ▸ ((List.map_congr_left hsame).trans (List.map_id _)).symm⟩

theorem exists_encode_of_slashed {bytes : Bytes} {text : List Char}
    (h : slashed bytes = Text.Utf8.encode text) :
    ∃ original, bytes = Text.Utf8.encode original := by
  induction text generalizing bytes with
  | nil => exact ⟨[], List.map_eq_nil_iff.mp h⟩
  | cons c rest ih =>
    rw [Text.Utf8.encode, List.flatMap_cons, ← Text.Utf8.encode] at h
    obtain ⟨front, back, rfl, hfront, hback⟩ := List.map_eq_append_iff.mp h
    obtain ⟨original, rfl⟩ := ih hback
    obtain ⟨d, rfl⟩ := exists_encodeChar_of_slashed hfront
    exact ⟨d :: original, rfl⟩

theorem isText_of_slashed {bytes : Bytes} {text : String}
    (h : slashed bytes = Bytes.ofString text) : bytes.IsText := by
  obtain ⟨original, horiginal⟩ := exists_encode_of_slashed h
  refine Bytes.isText_iff.mpr ⟨String.ofList original, ?_⟩
  rw [Bytes.ofString, String.toList_ofList, horiginal]

/-! ## Building locations -/

/-- The location of a member of an archive that may itself be a member of an archive, and so on up
to a file on disk. -/
def chain (path : Bytes) (names : List String) : Location := names.foldl member (ofPath path)

/-- The path and the names, each as bytes. -/
def parts (path : Bytes) (names : List String) : List Bytes := path :: names.map Bytes.ofString

/-- The byte of the mark. -/
def markByte : UInt8 := 0x40

/-- None of the parts has the mark in it. -/
def Unmarked (parts : List Bytes) : Prop := ∀ part ∈ parts, markByte ∉ part

instance (parts : List Bytes) : Decidable (Unmarked parts) :=
  inferInstanceAs (Decidable (∀ part ∈ parts, markByte ∉ part))

theorem ofPath_ofString (text : String) : ofPath (Bytes.ofString text) = ⟨normalize text⟩ := by
  rw [ofPath, Bytes.toText_ofString]

theorem chain_snoc (path : Bytes) (name : String) (names : List String) :
    chain path (names ++ [name]) = (chain path names).member name := by
  rw [chain, List.foldl_append]
  rfl

theorem parts_snoc (path : Bytes) (name : String) (names : List String) :
    parts path (names ++ [name]) = parts path names ++ [Bytes.ofString name] := by
  rw [parts, List.map_append]
  rfl

/-- Neither of the characters that are exchanged is the mark. -/
theorem mark_mem_normalize_iff (text : String) :
    memberMark ∈ (normalize text).toList ↔ memberMark ∈ text.toList := by
  rw [normalize, String.toList_ofList, List.mem_map]
  constructor
  · rintro ⟨c, hc, heq⟩
    split at heq
    · exact absurd heq (by decide)
    · exact heq ▸ hc
  · intro h
    exact ⟨memberMark, h, if_neg (by decide)⟩

/-- The mark is read from no other bytes than its own. -/
theorem mark_mem_ofPath_iff (path : Bytes) :
    memberMark ∈ (ofPath path).path.toList ↔ markByte ∈ path := by
  rw [ofPath, mark_mem_normalize_iff]
  exact Bytes.mem_toText_iff (by decide) (by decide) path

/-- The text of a location: that of the path and of the names, with the mark between them. -/
theorem path_chain (path : Bytes) (names : List String) :
    (chain path names).path = "@".intercalate ((path.toText :: names).map normalize) := by
  induction names using List.reverseRecOn with
  | nil => exact (String.intercalate_singleton).symm
  | append_singleton names name ih =>
    have hfront : (path.toText :: names).map normalize ≠ [] := List.cons_ne_nil _ _
    have hback : [name].map normalize ≠ [] := List.cons_ne_nil _ _
    rw [chain_snoc, ← List.cons_append, List.map_append,
      String.intercalate_append_of_ne_nil hfront hback, ← ih, List.map_singleton,
      String.intercalate_singleton]
    rfl

theorem toList_member (archive : Location) (name : String) :
    (archive.member name).path.toList =
      archive.path.toList ++ memberMark :: (normalize name).toList := by
  simp [member, String.toList_append]

/-! ## Segments -/

theorem segments_member (archive : Location) (name : String) :
    (archive.member name).segments =
      archive.segments ++ (ofPath (Bytes.ofString name)).segments := by
  have hpieces := @Text.split_append Char (· == memberMark) memberMark
    (beq_self_eq_true memberMark) archive.path.toList (normalize name).toList
  rw [segments, toList_member, hpieces, List.map_append, ofPath_ofString]
  rfl

/-- The path and the names are cut each for itself. -/
theorem segments_chain_eq (path : Bytes) (names : List String) :
    (chain path names).segments =
      (parts path names).flatMap fun part => (ofPath part).segments := by
  induction names using List.reverseRecOn with
  | nil => exact (List.append_nil _).symm
  | append_singleton names name ih =>
    rw [chain_snoc, segments_member, ih, parts_snoc, List.flatMap_append, List.flatMap_singleton]

theorem segments_ofPath {part : Bytes} (h : markByte ∉ part) :
    (ofPath part).segments = [(ofPath part).path] := by
  have hpieces : Text.split (· == memberMark) (ofPath part).path.toList =
      [(ofPath part).path.toList] := by
    apply Text.split_eq_self_iff.mpr
    intro c hc
    rw [beq_eq_false_iff_ne]
    rintro rfl
    exact h ((mark_mem_ofPath_iff part).mp hc)
  rw [segments, hpieces, List.map_singleton, String.ofList_toList]

theorem mark_not_mem_of_mem_segments {location : Location} {segment : String}
    (h : segment ∈ location.segments) : memberMark ∉ segment.toList := by
  obtain ⟨piece, hpiece, rfl⟩ := List.mem_map.mp h
  rw [String.toList_ofList]
  intro hmark
  exact Bool.false_ne_true
    ((Text.not_isSeparator_of_mem_split hpiece _ hmark).symm.trans (beq_self_eq_true memberMark))

theorem isMember_chain_iff (path : Bytes) (names : List String) :
    (chain path names).isMember = true ↔ names ≠ [] ∨ markByte ∈ path := by
  rw [isMember, List.contains_iff_mem]
  rcases List.eq_nil_or_concat names with rfl | ⟨front, name, rfl⟩
  · rw [chain, List.foldl_nil, mark_mem_ofPath_iff]
    simp
  · rw [List.concat_eq_append, chain_snoc, toList_member]
    simp

/-! ## What a location determines -/

/-- The texts of unmarked parts are the segments. -/
theorem segments_of_unmarked {path : Bytes} {names : List String}
    (h : Unmarked (parts path names)) :
    (chain path names).segments = (path.toText :: names).map normalize := by
  have hnames : (names.map Bytes.ofString).map (fun part => (ofPath part).path) =
      names.map normalize := by
    rw [List.map_map]
    exact List.map_congr_left fun name _ => congrArg Location.path (ofPath_ofString name)
  have hparts : (chain path names).segments =
      (parts path names).map fun part => (ofPath part).path := by
    rw [segments_chain_eq, List.flatMap_congr fun part hpart => segments_ofPath (h part hpart)]
    exact List.flatMap_pure_eq_map _ _
  rw [hparts, parts, List.map_cons, hnames]
  rfl

/-- The bytes of texts, after the replacement. -/
theorem map_ofString_normalize {path : Bytes} (h : path.IsText) (names : List String) :
    ((path.toText :: names).map normalize).map Bytes.ofString =
      (parts path names).map slashed := by
  rw [List.map_map, List.map_cons, parts, List.map_cons, List.map_map, Function.comp_apply,
    ofString_normalize, h]
  exact congrArg (_ :: ·) (List.map_congr_left fun name _ => ofString_normalize name)

/-- The segments are the path and the names only if the path is text and no part is marked. -/
theorem segments_chain_eq_iff (path : Bytes) (names : List String) :
    (chain path names).segments.map Bytes.ofString = (parts path names).map slashed ↔
      path.IsText ∧ Unmarked (parts path names) := by
  constructor
  · intro h
    have hsegment : ∀ part ∈ parts path names, ∃ segment ∈ (chain path names).segments,
        Bytes.ofString segment = slashed part := by
      intro part hpart
      have hmem : slashed part ∈ (chain path names).segments.map Bytes.ofString := by
        rw [h]
        exact List.mem_map_of_mem hpart
      exact List.mem_map.mp hmem
    refine ⟨?_, fun part hpart hmark => ?_⟩
    · obtain ⟨segment, -, hpath⟩ := hsegment path List.mem_cons_self
      exact isText_of_slashed hpath.symm
    · obtain ⟨segment, hmem, hbytes⟩ := hsegment part hpart
      refine mark_not_mem_of_mem_segments hmem ?_
      rw [← Bytes.toText_ofString segment, Bytes.mem_toText_iff (by decide) (by decide), hbytes]
      exact List.mem_map.mpr ⟨markByte, hmark, if_neg (by decide)⟩
  · rintro ⟨htext, hunmarked⟩
    rw [segments_of_unmarked hunmarked, map_ofString_normalize htext]

/-- Unmarked chains have the same location where their texts are the same. -/
theorem chain_eq_chain_iff {path other : Bytes} {names others : List String}
    (h : Unmarked (parts path names)) (h' : Unmarked (parts other others)) :
    chain path names = chain other others ↔
      (path.toText :: names).map normalize = (other.toText :: others).map normalize := by
  constructor
  · intro hchain
    rw [← segments_of_unmarked h, hchain]
    exact segments_of_unmarked h'
  · intro htexts
    have hpath : (chain path names).path = (chain other others).path := by
      rw [path_chain, path_chain, htexts]
    exact congrArg Location.mk hpath

/-- The text of a location is that of the path and of the names, with `/` for each backslash and the
mark between them. Byte for byte the segments are the path and the names exactly if the path is text
and no mark stands in any of them. A location is taken for one inside an archive if there is a name,
or a mark in the path. If no marks stand in them, then the path and the names are the same wherever
the location is the same, in their bytes if the paths are text, and else as far as they can be
read. -/
theorem segments_chain (path : Bytes) (names : List String) :
    (chain path names).path = "@".intercalate ((path.toText :: names).map normalize) ∧
    ((chain path names).segments.map Bytes.ofString = (parts path names).map slashed ↔
      path.IsText ∧ Unmarked (parts path names)) ∧
    ((chain path names).isMember = true ↔ names ≠ [] ∨ markByte ∈ path) ∧
    ∀ other others, Unmarked (parts path names) → Unmarked (parts other others) →
      (chain path names = chain other others ↔
        (path.toText :: names).map normalize = (other.toText :: others).map normalize) ∧
      (path.IsText → other.IsText →
        (chain path names = chain other others ↔
          (parts path names).map slashed = (parts other others).map slashed)) := by
  refine ⟨path_chain path names, segments_chain_eq_iff path names,
    isMember_chain_iff path names, ?_⟩
  intro other others hunmarked hothers
  refine ⟨chain_eq_chain_iff hunmarked hothers, fun hpath hother => ?_⟩
  rw [chain_eq_chain_iff hunmarked hothers, ← map_ofString_normalize hpath,
    ← map_ofString_normalize hother]
  exact (List.map_injective_iff.mpr Bytes.ofString_injective).eq_iff.symm

/-- Two paths that are not UTF-8 and differ in the last byte. -/
example : chain [0x61, 0xFF] ["B.class"] = chain [0x61, 0xFE] ["B.class"] := by
  decide +kernel

/-- Two spellings of one member of an archive in an archive, and another member there. -/
theorem segments_chain_separators :
    let backslashed : Bytes := "C:\\app.war"
    let path : Bytes := "C:/app.war"
    (backslashed.IsText ∧ path.IsText) ∧
      (Unmarked (parts backslashed ["lib\\core.jar", "a/B.class"]) ∧
        Unmarked (parts path ["lib/core.jar", "a\\B.class"]) ∧
        Unmarked (parts path ["lib/core.jar", "a/C.class"])) ∧
      chain backslashed ["lib\\core.jar", "a/B.class"] =
        chain path ["lib/core.jar", "a\\B.class"] ∧
      chain backslashed ["lib\\core.jar", "a/B.class"] ≠
        chain path ["lib/core.jar", "a/C.class"] := by
  intro backslashed path
  have hbackslashed : backslashed.IsText := Bytes.isText_iff.mpr ⟨_, rfl⟩
  have hpath : path.IsText := Bytes.isText_iff.mpr ⟨_, rfl⟩
  have hone : Unmarked (parts backslashed ["lib\\core.jar", "a/B.class"]) := by decide
  have hsame : Unmarked (parts path ["lib/core.jar", "a\\B.class"]) := by decide
  have hother : Unmarked (parts path ["lib/core.jar", "a/C.class"]) := by decide
  obtain ⟨-, -, -, hiff⟩ := segments_chain backslashed ["lib\\core.jar", "a/B.class"]
  obtain ⟨-, hsameBytes⟩ := hiff path ["lib/core.jar", "a\\B.class"] hone hsame
  obtain ⟨-, hotherBytes⟩ := hiff path ["lib/core.jar", "a/C.class"] hone hother
  refine ⟨⟨hbackslashed, hpath⟩, ⟨hone, hsame, hother⟩, ?_, ?_⟩
  · exact (hsameBytes hbackslashed hpath).mpr (by decide)
  · intro h
    exact absurd ((hotherBytes hbackslashed hpath).mp h) (by decide)

/-- A directory with the mark in its name: the location of a file in it has two segments, is taken
for one inside an archive, and is that of a member of the archive `a`. -/
theorem chain_marked_path :
    (chain "a@1/b.class" []).segments = ["a", "1/b.class"] ∧
      (chain "a@1/b.class" []).isMember = true ∧
      chain "a@1/b.class" [] = chain "a" ["1/b.class"] := by
  decide +kernel

end Location

end TestCoverage

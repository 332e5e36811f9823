import Mathlib
import TestCoverage.Json.Record
import TestCoverage.Json.Writer

/-!
# Reading back what was written as JSON

Records that are written in JSON are read as the values that they stand for (`FlatRecord.toJson`),
whatever the names and texts of their fields are: a field that is `null` is told from an empty
text, and every escape is read as the character that it was written for.

* `readUnits_escapeChar`: one character of a text is read back.
* `Part.readParts_intercalate`: the parts of an array or an object are read one after the other.
* `read_writeRecords`, `read_writeRecord`: whole texts.

The reader is given a number of steps. `ReadsAs` says that as many as there are characters suffice,
and that whatever stands behind a value is left over; so values compose.
-/

namespace TestCoverage.Json

/-! ## Texts -/

/-- Puts a code point in front of those that are read. -/
def withUnit (unit : Nat) : List Nat × List Char → List Nat × List Char
  | (units, rest) => (unit :: units, rest)

theorem readUnits_short {c : Char} {unit : Nat} (h : shortEscape? c = some unit)
    (rest : List Char) : readUnits ('\\' :: c :: rest) = (readUnits rest).map (withUnit unit) := by
  have hc : c ≠ 'u' := by
    rintro rfl
    cases h
  rw [readUnits]
  · rw [h]
    cases readUnits rest <;> rfl
  · intro _ _ _ _ _ heq
    exact absurd heq hc

theorem readUnits_hex {a b c d : Char} {unit : Nat} (h : hexNumber? a b c d = some unit)
    (rest : List Char) :
    readUnits ('\\' :: 'u' :: a :: b :: c :: d :: rest) =
      (readUnits rest).map (withUnit unit) := by
  rw [readUnits, h]
  cases readUnits rest <;> rfl

/-- The four digits of a control character are read back. -/
theorem hexNumber?_hex : ∀ n < 0x20,
    (hex 4 n).toList = ['0', '0', Nat.digitChar (n / 16), Nat.digitChar (n % 16)] ∧
      hexNumber? '0' '0' (Nat.digitChar (n / 16)) (Nat.digitChar (n % 16)) = some n := by
  decide

theorem readUnits_escapeChar (c : Char) (rest : List Char) :
    readUnits (escapeChar c ++ rest) = (readUnits rest).map (withUnit c.toNat) := by
  unfold escapeChar
  split
  · exact readUnits_short rfl rest
  · exact readUnits_short rfl rest
  · exact readUnits_short rfl rest
  · exact readUnits_short rfl rest
  · exact readUnits_short rfl rest
  · exact readUnits_short rfl rest
  · exact readUnits_short rfl rest
  · next hquote hbackslash _ _ _ _ _ =>
    split
    · next hcontrol =>
      obtain ⟨hhex, hread⟩ := hexNumber?_hex c.toNat hcontrol
      rw [hhex]
      exact readUnits_hex hread rest
    · next hcontrol =>
      have hplain : (c.toNat < 0x20 || c == '\\') = false := by
        simpa using And.intro (Nat.le_of_not_lt hcontrol) hbackslash
      rw [List.singleton_append, readUnits]
      · rw [hplain]
        cases readUnits rest <;> rfl
      · exact hquote
      · intro _ _ _ _ _ heq
        exact absurd heq hbackslash
      · intro _ _ heq
        exact absurd heq hbackslash

/-- No character is a surrogate, so each one stands for itself. -/
theorem joinSurrogates_toNat (chars : List Char) :
    joinSurrogates (chars.map Char.toNat) = some chars := by
  induction chars with
  | nil => rfl
  | cons c rest ih =>
    have hc : c.toNat < 0xD800 ∨ 0xDFFF < c.toNat := by
      rcases c.valid with h | h
      · exact .inl h
      · exact .inr h.1
    rw [List.map_cons, joinSurrogates.eq_def]
    dsimp only
    rw [if_pos (by simpa using hc), ih, Option.map_some, Char.ofNat_toNat]

theorem readUnits_escape (chars rest : List Char) :
    readUnits (chars.flatMap escapeChar ++ '"' :: rest) = some (chars.map Char.toNat, rest) := by
  induction chars with
  | nil => rw [List.flatMap_nil, List.nil_append, readUnits, List.map_nil]
  | cons c chars ih =>
    rw [List.flatMap_cons, List.append_assoc, readUnits_escapeChar, ih]
    rfl

theorem readText_escape (value : String) (rest : List Char) :
    readText (value.toList.flatMap escapeChar ++ '"' :: rest) = some (some value, rest) := by
  rw [readText, readUnits_escape, Option.bind_eq_bind, Option.bind_some]
  dsimp only
  rw [joinSurrogates_toNat, Option.map_some, String.ofList_toList]
  rfl

/-! ## White space -/

theorem skipSpace_skipSpace (source : List Char) :
    skipSpace (skipSpace source) = skipSpace source :=
  List.dropWhile_idempotent _ source

theorem skipSpace_append {space : List Char} (h : ∀ c ∈ space, isSpace c = true)
    (source : List Char) : skipSpace (space ++ source) = skipSpace source :=
  List.dropWhile_append_of_pos h

theorem skipSpace_cons {c : Char} (h : isSpace c = false) (source : List Char) :
    skipSpace (c :: source) = c :: source :=
  List.dropWhile_cons_of_neg (by simp [h])

theorem readValue_skipSpace (steps : Nat) (source : List Char) :
    readValue steps (skipSpace source) = readValue steps source := by
  cases steps with
  | zero => rfl
  | succ steps => rw [readValue, readValue, skipSpace_skipSpace]

theorem readElements_skipSpace (steps : Nat) (source : List Char) :
    readElements steps (skipSpace source) = readElements steps source := by
  cases steps with
  | zero => rfl
  | succ steps => rw [readElements, readElements, readValue_skipSpace]

theorem readMembers_skipSpace (steps : Nat) (source : List Char) :
    readMembers steps (skipSpace source) = readMembers steps source := by
  cases steps with
  | zero => rfl
  | succ steps => rw [readMembers, readMembers, skipSpace_skipSpace]

/-! ## Values -/

/-- The text is read as the value, whatever stands behind it. -/
def ReadsAs (text : List Char) (value : Json) : Prop :=
  ∀ steps rest, text.length ≤ steps → readValue steps (text ++ rest) = some (value, rest)

theorem ReadsAs.space {text space : List Char} {value : Json} (h : ReadsAs text value)
    (hspace : ∀ c ∈ space, isSpace c = true) : ReadsAs (space ++ text) value := by
  intro steps rest hsteps
  rw [List.length_append] at hsteps
  rw [← readValue_skipSpace, List.append_assoc, skipSpace_append hspace, readValue_skipSpace]
  exact h steps rest (by omega)

theorem readsAs_writeText (value : String) : ReadsAs (writeText value) (.text (some value)) := by
  intro steps rest hsteps
  cases steps with
  | zero => cases hsteps
  | succ steps =>
    have hquote : ∀ source, readValue (steps + 1) ('"' :: source) =
        (readText source).map fun read => (.text read.1, read.2) := fun _ => rfl
    rw [writeText, List.append_assoc, List.singleton_append, List.cons_append, hquote,
      readText_escape]
    rfl

/-- The value of a field, which may be missing. -/
def ofField : Option String → Json
  | some value => .text (some value)
  | none => .null

theorem readsAs_writeValue (value : Option String) :
    ReadsAs (writeValue value) (ofField value) := by
  cases value with
  | some value => exact readsAs_writeText value
  | none =>
    intro steps rest hsteps
    cases steps with
    | zero => cases hsteps
    | succ steps => rfl

/-! ## Parts of arrays and objects -/

section Parts

variable {β : Type} {readParts : Nat → List Char → Option (List β × List Char)} {closing : Char}

/-- The text is read as one part of an array or object, which either ends behind it or goes on
behind a comma. -/
structure Part (readParts : Nat → List Char → Option (List β × List Char)) (closing : Char)
    (text : List Char) (part : β) : Prop where
  last : ∀ {steps : Nat} {behind rest : List Char}, text.length ≤ steps →
    skipSpace behind = closing :: rest →
      readParts (steps + 1) (text ++ behind) = some ([part], rest)
  comma : ∀ {steps : Nat} {behind rest : List Char} {parts : List β}, text.length ≤ steps →
    readParts steps behind = some (parts, rest) →
      readParts (steps + 1) (text ++ ',' :: behind) = some (part :: parts, rest)

theorem Part.readParts_intercalate {texts : List (List Char)} {parts : List β}
    (h : List.Forall₂ (Part readParts closing) texts parts) (hne : texts ≠ [])
    {behind rest : List Char} (hbehind : skipSpace behind = closing :: rest) {steps : Nat}
    (hsteps : ([','].intercalate texts).length < steps) :
    readParts steps ([','].intercalate texts ++ behind) = some (parts, rest) := by
  induction h generalizing steps with
  | nil => exact absurd rfl hne
  | @cons text part others more hpart hmore ih =>
    obtain ⟨steps, rfl⟩ := Nat.exists_eq_add_of_lt (Nat.zero_lt_of_lt hsteps)
    rw [Nat.zero_add] at hsteps ⊢
    cases hmore with
    | nil =>
      rw [List.intercalate_singleton] at hsteps ⊢
      exact hpart.last (by omega) hbehind
    | @cons second _ others _ _ _ =>
      have hjoined : [','].intercalate (text :: second :: others) =
          text ++ ',' :: [','].intercalate (second :: others) := by
        rw [List.intercalate_cons_cons, List.append_assoc, List.singleton_append]
      rw [hjoined, List.length_append, List.length_cons] at hsteps
      rw [hjoined, List.append_assoc, List.cons_append]
      exact hpart.comma (by omega) (ih (by simp) (by omega))

end Parts

theorem ReadsAs.element {text : List Char} {value : Json} (h : ReadsAs text value) :
    Part readElements ']' text value where
  last := by
    intro steps behind rest hsteps hbehind
    rw [readElements, h steps behind hsteps]
    simp [hbehind]
  comma := by
    intro steps behind rest parts hsteps hparts
    rw [readElements, h steps _ hsteps]
    simp [skipSpace_cons, isSpace, hparts]

theorem ReadsAs.member {text space : List Char} {value : Json} (h : ReadsAs text value)
    (hspace : ∀ c ∈ space, isSpace c = true) (name : String) :
    Part readMembers '\x7d' (space ++ (writeText name ++ ':' :: text)) (some name, value) where
  last := by
    intro steps behind rest hsteps hbehind
    simp only [List.length_append, List.length_cons] at hsteps
    have hvalue := h steps behind (by omega)
    rw [List.append_assoc, readMembers, skipSpace_append hspace, writeText]
    simp [skipSpace_cons, isSpace, readText_escape, hvalue, hbehind]
  comma := by
    intro steps behind rest members hsteps hmembers
    simp only [List.length_append, List.length_cons] at hsteps
    have hvalue := h steps (',' :: behind) (by omega)
    rw [List.append_assoc, readMembers, skipSpace_append hspace, writeText]
    simp [skipSpace_cons, isSpace, readText_escape, hvalue, hmembers]

/-! ## Arrays and objects -/

section Brackets

variable {steps : Nat} {body rest : List Char}

theorem readValue_bracket : readValue (steps + 1) ('[' :: body) =
    match skipSpace body with
    | ']' :: rest => some (.array [], rest)
    | rest => (readElements steps rest).map fun (elements, rest) => (.array elements, rest) := rfl

theorem readValue_brace : readValue (steps + 1) ('\x7b' :: body) =
    match skipSpace body with
    | '\x7d' :: rest => some (.object [], rest)
    | rest => (readMembers steps rest).map fun (members, rest) => (.object members, rest) := rfl

theorem readElements_closing (steps : Nat) (rest : List Char) :
    readElements steps (']' :: rest) = none := by
  rcases steps with _ | _ | steps <;> rfl

theorem readMembers_closing (steps : Nat) (rest : List Char) :
    readMembers steps ('\x7d' :: rest) = none := by
  cases steps <;> rfl

theorem readValue_elements {elements : List Json}
    (h : readElements steps body = some (elements, rest)) :
    readValue (steps + 1) ('[' :: body) = some (.array elements, rest) := by
  rw [← readElements_skipSpace] at h
  rw [readValue_bracket]
  split
  · next heq =>
    rw [heq, readElements_closing] at h
    cases h
  · rw [h]
    rfl

theorem readValue_members {members : List (Option String × Json)}
    (h : readMembers steps body = some (members, rest)) :
    readValue (steps + 1) ('\x7b' :: body) = some (.object members, rest) := by
  rw [← readMembers_skipSpace] at h
  rw [readValue_brace]
  split
  · next heq =>
    rw [heq, readMembers_closing] at h
    cases h
  · rw [h]
    rfl

end Brackets

variable {texts : List (List Char)} {space : List Char}

theorem readsAs_array {values : List Json} (h : List.Forall₂ ReadsAs texts values)
    (hspace : ∀ c ∈ space, isSpace c = true) :
    ReadsAs ('[' :: ([','].intercalate texts ++ (space ++ [']']))) (.array values) := by
  intro steps rest hsteps
  have hbehind : skipSpace (space ++ ']' :: rest) = ']' :: rest := by
    rw [skipSpace_append hspace, skipSpace_cons rfl]
  have hparts := h.imp fun _ _ => ReadsAs.element
  simp only [List.length_cons, List.length_append] at hsteps
  obtain ⟨steps, rfl⟩ := Nat.exists_eq_add_one.mpr (Nat.zero_lt_of_lt hsteps)
  rw [List.cons_append, List.append_assoc, List.append_assoc, List.singleton_append]
  by_cases hne : texts = []
  · subst hne
    obtain rfl := List.forall₂_nil_left_iff.mp h
    rw [List.intercalate_nil, List.nil_append, readValue_bracket, hbehind]
    rfl
  · exact readValue_elements (Part.readParts_intercalate hparts hne hbehind (by omega))

theorem readsAs_object {members : List (Option String × Json)}
    (h : List.Forall₂ (Part readMembers '\x7d') texts members)
    (hspace : ∀ c ∈ space, isSpace c = true) :
    ReadsAs ('\x7b' :: ([','].intercalate texts ++ (space ++ ['\x7d']))) (.object members) := by
  intro steps rest hsteps
  have hbehind : skipSpace (space ++ '\x7d' :: rest) = '\x7d' :: rest := by
    rw [skipSpace_append hspace, skipSpace_cons rfl]
  simp only [List.length_cons, List.length_append] at hsteps
  obtain ⟨steps, rfl⟩ := Nat.exists_eq_add_one.mpr (Nat.zero_lt_of_lt hsteps)
  rw [List.cons_append, List.append_assoc, List.append_assoc, List.singleton_append]
  by_cases hne : texts = []
  · subst hne
    obtain rfl := List.forall₂_nil_left_iff.mp h
    rw [List.intercalate_nil, List.nil_append, readValue_brace, hbehind]
    rfl
  · exact readValue_members (Part.readParts_intercalate h hne hbehind (by omega))

/-! ## Records -/

/-- The value that a record stands for. -/
def FlatRecord.toJson (record : FlatRecord) : Json :=
  .object (record.map fun (name, value) => (some name, ofField value))

/-- The fields of a record are read back, with white space around their names. -/
theorem readsAs_fields (record : FlatRecord) {before between behind : List Char}
    (hbefore : ∀ c ∈ before, isSpace c = true) (hbetween : ∀ c ∈ between, isSpace c = true)
    (hbehind : ∀ c ∈ behind, isSpace c = true) :
    ReadsAs ('\x7b' :: ([','].intercalate (record.map fun (name, value) =>
        before ++ (writeText name ++ ':' :: (between ++ writeValue value))) ++
          (behind ++ ['\x7d'])))
      record.toJson := by
  apply readsAs_object _ hbehind
  rw [List.forall₂_map_left_iff, List.forall₂_map_right_iff, List.forall₂_same]
  intro (name, value) _
  exact ((readsAs_writeValue value).space hbetween).member hbefore name

theorem readsAs_writeIndented (record : FlatRecord) :
    ReadsAs (writeIndented record) record.toJson := by
  have hname : ∀ c ∈ "\n    ".toList, isSpace c = true := by simp [isSpace]
  have hvalue : ∀ c ∈ [' '], isSpace c = true := by simp [isSpace]
  have hline : ∀ c ∈ "\n  ".toList, isSpace c = true := by simp [isSpace]
  have hread := (readsAs_fields record hname hvalue hline).space hline
  unfold writeIndented
  simpa using hread

theorem read_eq_some {text : List Char} {value : Json} (h : ReadsAs text value) :
    read (String.ofList text) = some value := by
  have hread := h (text.length + 1) [] (Nat.le_succ _)
  rw [List.append_nil] at hread
  rw [read, String.toList_ofList, hread]
  rfl

/-- A list of records is read back. -/
theorem read_writeRecords (records : List FlatRecord) :
    read (writeRecords records) = some (.array (records.map FlatRecord.toJson)) := by
  have hrecords : List.Forall₂ ReadsAs (records.map writeIndented)
      (records.map FlatRecord.toJson) := by
    rw [List.forall₂_map_left_iff, List.forall₂_map_right_iff, List.forall₂_same]
    exact fun record _ => readsAs_writeIndented record
  have hline : ∀ c ∈ ['\n'], isSpace c = true := by simp [isSpace]
  unfold writeRecords
  split
  · rfl
  · exact read_eq_some (readsAs_array hrecords hline)

/-- A record on one line is read back. -/
theorem read_writeRecord (record : FlatRecord) :
    read (writeRecord record) = some record.toJson := by
  have hnone : ∀ c ∈ ([] : List Char), isSpace c = true := by simp
  have hread := readsAs_fields record hnone hnone hnone
  simp only [List.nil_append] at hread
  exact read_eq_some hread

end TestCoverage.Json

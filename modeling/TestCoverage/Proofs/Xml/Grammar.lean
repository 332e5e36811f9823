import Mathlib
import TestCoverage.Report.Document

/-!
# Well-formed XML

`Xml.WellFormed` is the part of XML 1.0 that consists of a declaration, elements, attributes,
character data and references to the predefined entities: a document is characters that XML
allows (`Xml.IsChar`), arranged as one element (`Xml.Document`). There are no comments,
processing instructions, sections of raw data or document types, and no `>` in character
data, which XML only forbids after `]]`.

Markup whose tags nest and close (`Xml.Nested`) is laid out as content, whatever its texts and
attribute values are (`Xml.Nested.content_layout`, `Xml.document_documentText`). Whether the
characters are allowed depends on the markup only: layout and escapes add none that are not
(`Xml.isText_layout_iff`).
-/

namespace TestCoverage.Xml

/-! ## The grammar -/

/-- The code points that XML allows, as closed ranges. -/
def charRanges : List (Nat × Nat) :=
  [(0x9, 0xA), (0xD, 0xD), (0x20, 0xD7FF), (0xE000, 0xFFFD), (0x10000, 0x10FFFF)]

/-- The code points that can begin a name. -/
def nameStartRanges : List (Nat × Nat) :=
  [(0x3A, 0x3A), (0x41, 0x5A), (0x5F, 0x5F), (0x61, 0x7A), (0xC0, 0xD6), (0xD8, 0xF6),
   (0xF8, 0x2FF), (0x370, 0x37D), (0x37F, 0x1FFF), (0x200C, 0x200D), (0x2070, 0x218F),
   (0x2C00, 0x2FEF), (0x3001, 0xD7FF), (0xF900, 0xFDCF), (0xFDF0, 0xFFFD), (0x10000, 0xEFFFF)]

/-- The other code points of names. -/
def nameRanges : List (Nat × Nat) :=
  [(0x2D, 0x2E), (0x30, 0x39), (0xB7, 0xB7), (0x300, 0x36F), (0x203F, 0x2040)]

def inRanges (ranges : List (Nat × Nat)) (c : Char) : Bool :=
  ranges.any fun (low, high) => low ≤ c.toNat && c.toNat ≤ high

/-- A character that may stand in a document. -/
def IsChar (c : Char) : Prop := inRanges charRanges c = true

instance : DecidablePred IsChar := fun c =>
  inferInstanceAs (Decidable (inRanges charRanges c = true))

/-- White space. -/
def IsSpace (c : Char) : Prop := c = ' ' ∨ c = '\t' ∨ c = '\r' ∨ c = '\n'

def isName : List Char → Bool
  | [] => false
  | c :: rest => inRanges nameStartRanges c &&
      rest.all fun c => inRanges nameStartRanges c || inRanges nameRanges c

/-- The names of the predefined entities. -/
def entities : List (List Char) :=
  ["lt".toList, "gt".toList, "amp".toList, "apos".toList, "quot".toList]

/-- Characters other than some that are excluded, and references to entities. -/
inductive Data (excluded : List Char) : List Char → Prop where
  | nil : Data excluded []
  | char {c : Char} {rest : List Char} (hc : c ∉ excluded) (h : Data excluded rest) :
      Data excluded (c :: rest)
  | reference {entity rest : List Char} (hentity : entity ∈ entities) (h : Data excluded rest) :
      Data excluded ('&' :: entity ++ ';' :: rest)

/-- The attributes of a tag, with their names. No name occurs twice. -/
inductive AttributeList : List (List Char) → List Char → Prop where
  | nil : AttributeList [] []
  | cons {name value rest : List Char} {names : List (List Char)} (hname : isName name = true)
      (hfresh : name ∉ names) (hvalue : Data ['<', '&', '"'] value) (h : AttributeList names rest) :
      AttributeList (name :: names) (' ' :: name ++ '=' :: '"' :: value ++ '"' :: rest)

/-- The name of a tag with its attributes. -/
def TagHead (name head : List Char) : Prop :=
  isName name = true ∧
    ∃ names attributes, AttributeList names attributes ∧ head = name ++ attributes

mutual

/-- An element: an empty tag, or content between a tag and the tag that closes it. -/
inductive Element : List Char → Prop where
  | empty {name head : List Char} (hhead : TagHead name head) : Element ('<' :: head ++ ['/', '>'])
  | tags {name head content : List Char} (hhead : TagHead name head) (hcontent : Content content) :
      Element ('<' :: head ++ '>' :: content ++ '<' :: '/' :: name ++ ['>'])

/-- What may stand inside an element. -/
inductive Content : List Char → Prop where
  | nil : Content []
  | data {text rest : List Char} (hdata : Data ['<', '&', '>'] text) (h : Content rest) :
      Content (text ++ rest)
  | element {text rest : List Char} (helement : Element text) (h : Content rest) :
      Content (text ++ rest)

end

/-- A declaration and one element, with white space around the element. -/
inductive Document : List Char → Prop where
  | intro {before element after : List Char} (hbefore : ∀ c ∈ before, IsSpace c)
      (helement : Element element) (hafter : ∀ c ∈ after, IsSpace c) :
      Document ("<?xml version=\"1.0\" encoding=\"UTF-8\"?>".toList ++ before ++ element ++ after)

/-- All characters are allowed. -/
def IsText (text : List Char) : Prop := ∀ c ∈ text, IsChar c

structure WellFormed (text : List Char) : Prop where
  document : Document text
  isText : IsText text

/-! ## Escapes -/

/-- A character is escaped as a reference, or it needs no escape. -/
theorem escapeChar_cases (c : Char) :
    (∃ entity ∈ entities, escapeChar c = '&' :: entity ++ [';']) ∨
      escapeChar c = [c] ∧ c ∉ ['<', '>', '&', '\'', '"'] := by
  unfold escapeChar
  split
  · exact .inl ⟨"lt".toList, by simp [entities], rfl⟩
  · exact .inl ⟨"gt".toList, by simp [entities], rfl⟩
  · exact .inl ⟨"amp".toList, by simp [entities], rfl⟩
  · exact .inl ⟨"apos".toList, by simp [entities], rfl⟩
  · exact .inl ⟨"quot".toList, by simp [entities], rfl⟩
  · refine .inr ⟨rfl, ?_⟩
    simp only [List.mem_cons, List.not_mem_nil, or_false, not_or]
    exact ⟨‹_›, ‹_›, ‹_›, ‹_›, ‹_›⟩

/-- An escaped text has none of the characters that markup uses. -/
theorem data_escape {excluded : List Char} (hexcluded : excluded ⊆ ['<', '>', '&', '\'', '"'])
    (text : String) : Data excluded (escape text) := by
  unfold escape
  induction text.toList with
  | nil => exact .nil
  | cons c rest ih =>
    rw [List.flatMap_cons]
    rcases escapeChar_cases c with ⟨entity, hentity, h⟩ | ⟨h, hc⟩
    · rw [h, List.append_assoc]
      exact .reference hentity ih
    · rw [h]
      exact .char (fun hmem => hc (hexcluded hmem)) ih

/-! ## Tags that nest -/

/-- The names in a tag are names, and no two attributes have the same. -/
structure ValidTag (name : String) (attributes : Attributes) : Prop where
  name : isName name.toList = true
  names : ∀ a ∈ attributes, isName a.1.toList = true
  nodup : (attributes.map fun a => a.1.toList).Nodup

theorem validTag_plain {name : String} (h : isName name.toList = true) : ValidTag name [] where
  name := h
  names := by simp
  nodup := by simp

/-- Markup whose tags nest and close. -/
inductive Nested : List Markup → Prop where
  | nil : Nested []
  | text {text : String} {rest : List Markup} (h : Nested rest) : Nested (.text text :: rest)
  | emptyTag {name : String} {attributes : Attributes} {rest : List Markup}
      (htag : ValidTag name attributes) (h : Nested rest) :
      Nested (.emptyTag name attributes :: rest)
  | element {name : String} {attributes : Attributes} {content rest : List Markup}
      (htag : ValidTag name attributes) (hcontent : Nested content) (h : Nested rest) :
      Nested (element name attributes content ++ rest)

/-- The number of open elements after some markup inside `depth` of them. -/
def depthAfter : Nat → List Markup → Nat
  | depth, [] => depth
  | depth, .openTag _ _ :: rest => depthAfter (depth + 1) rest
  | depth, .closeTag _ :: rest => depthAfter (depth - 1) rest
  | depth, .emptyTag _ _ :: rest => depthAfter depth rest
  | depth, .text _ :: rest => depthAfter depth rest

/-- Whether what comes next follows a text. -/
def endsInText : Bool → List Markup → Bool
  | afterText, [] => afterText
  | _, .openTag _ _ :: rest => endsInText false rest
  | _, .closeTag _ :: rest => endsInText false rest
  | _, .emptyTag _ _ :: rest => endsInText false rest
  | _, .text _ :: rest => endsInText true rest

section Layout

variable (depth : Nat) (afterText : Bool) (first second : List Markup)

theorem layout_append :
    layout depth afterText (first ++ second) =
      layout depth afterText first ++
        layout (depthAfter depth first) (endsInText afterText first) second := by
  induction first generalizing depth afterText with
  | nil => rfl
  | cons piece rest ih =>
    rw [List.cons_append]
    cases piece <;> simp [layout, depthAfter, endsInText, ih]

theorem depthAfter_append :
    depthAfter depth (first ++ second) = depthAfter (depthAfter depth first) second := by
  induction first generalizing depth with
  | nil => rfl
  | cons piece rest ih =>
    rw [List.cons_append]
    cases piece <;> exact ih _

theorem endsInText_append :
    endsInText afterText (first ++ second) = endsInText (endsInText afterText first) second := by
  induction first generalizing afterText with
  | nil => rfl
  | cons piece rest ih =>
    rw [List.cons_append]
    cases piece <;> exact ih _

end Layout

/-- Tags that nest close what they open. -/
theorem Nested.depthAfter_eq {markup : List Markup} (h : Nested markup) (depth : Nat) :
    depthAfter depth markup = depth := by
  induction h generalizing depth with
  | nil => rfl
  | text _ ih => exact ih depth
  | emptyTag _ _ ih => exact ih depth
  | element _ _ _ ihcontent ih =>
    rw [Xml.element, depthAfter_append, List.cons_append, depthAfter, depthAfter_append, ihcontent]
    exact ih depth

theorem Nested.append {first second : List Markup} (hfirst : Nested first)
    (hsecond : Nested second) : Nested (first ++ second) := by
  induction hfirst with
  | nil => exact hsecond
  | text _ ih => exact .text ih
  | emptyTag htag _ ih => exact .emptyTag htag ih
  | element htag hcontent _ _ ih =>
    rw [List.append_assoc]
    exact .element htag hcontent ih

theorem nested_flatMap {α : Type} {parts : List α} {markup : α → List Markup}
    (h : ∀ part ∈ parts, Nested (markup part)) : Nested (parts.flatMap markup) := by
  induction parts with
  | nil => exact .nil
  | cons part rest ih =>
    obtain ⟨hpart, hrest⟩ := List.forall_mem_cons.mp h
    rw [List.flatMap_cons]
    exact hpart.append (ih hrest)

/-- Parts that nest and end with a tag are laid out one after the other. -/
theorem layout_flatMap {α : Type} {markup : α → List Markup} (depth : Nat)
    (hnested : ∀ part, Nested (markup part))
    (hends : ∀ part, endsInText false (markup part) = false) (parts : List α) :
    layout depth false (parts.flatMap markup) =
      parts.flatMap fun part => layout depth false (markup part) := by
  induction parts with
  | nil => rfl
  | cons part rest ih =>
    rw [List.flatMap_cons, List.flatMap_cons, layout_append, (hnested part).depthAfter_eq, hends,
      ih]

theorem endsInText_flatMap {α : Type} {markup : α → List Markup}
    (hends : ∀ part, endsInText false (markup part) = false) (parts : List α) :
    endsInText false (parts.flatMap markup) = false := by
  induction parts with
  | nil => rfl
  | cons part rest ih => rw [List.flatMap_cons, endsInText_append, hends, ih]

/-! ## Layout as content -/

theorem Content.append {a b : List Char} (ha : Content a) (hb : Content b) :
    Content (a ++ b) := by
  match ha with
  | .nil => exact hb
  | .data hdata h =>
    rw [List.append_assoc]
    exact .data hdata (h.append hb)
  | .element helement h =>
    rw [List.append_assoc]
    exact .element helement (h.append hb)

theorem isSpace_of_mem_lead {afterText : Bool} {depth : Nat} {c : Char}
    (h : c ∈ lead afterText depth) : IsSpace c := by
  unfold lead at h
  split at h
  · cases h
  · rcases List.mem_cons.mp h with rfl | h
    · exact .inr (.inr (.inr rfl))
    · exact .inl (List.eq_of_mem_replicate h)

/-- White space is content. -/
theorem content_of_isSpace {text : List Char} (h : ∀ c ∈ text, IsSpace c) : Content text := by
  have hdata : Data ['<', '&', '>'] text := by
    induction text with
    | nil => exact .nil
    | cons c rest ih =>
      obtain ⟨hc, hrest⟩ := List.forall_mem_cons.mp h
      refine .char ?_ (ih hrest)
      rcases hc with rfl | rfl | rfl | rfl <;> decide
  rw [← List.append_nil text]
  exact .data hdata .nil

theorem content_lead (afterText : Bool) (depth : Nat) : Content (lead afterText depth) :=
  content_of_isSpace fun _ => isSpace_of_mem_lead

theorem attributeList_writeAttributes {attributes : Attributes}
    (hnames : ∀ a ∈ attributes, isName a.1.toList = true)
    (hnodup : (attributes.map fun a => a.1.toList).Nodup) :
    AttributeList (attributes.map fun a => a.1.toList) (writeAttributes attributes) := by
  induction attributes with
  | nil => exact .nil
  | cons a rest ih =>
    obtain ⟨hname, hnames⟩ := List.forall_mem_cons.mp hnames
    obtain ⟨hfresh, hnodup⟩ := List.nodup_cons.mp hnodup
    have hrest := AttributeList.cons hname hfresh (data_escape (by simp) a.2) (ih hnames hnodup)
    simpa [writeAttributes] using hrest

theorem ValidTag.head {name : String} {attributes : Attributes} (h : ValidTag name attributes) :
    TagHead name.toList (name.toList ++ writeAttributes attributes) :=
  ⟨h.name, _, _, attributeList_writeAttributes h.names h.nodup, rfl⟩

/-- What is written of an element after the space in front of it. -/
def elementText (depth : Nat) (name : String) (attributes : Attributes)
    (content : List Markup) : List Char :=
  '<' :: (name.toList ++ writeAttributes attributes) ++
    '>' :: (layout (depth + 1) false content ++ lead (endsInText false content) depth) ++
      '<' :: '/' :: name.toList ++ ['>']

theorem layout_element (depth : Nat) (afterText : Bool) (name : String) (attributes : Attributes)
    {content : List Markup} (hcontent : Nested content) (rest : List Markup) :
    layout depth afterText (element name attributes content ++ rest) =
      lead afterText depth ++ (elementText depth name attributes content ++
        layout depth false rest) := by
  rw [element, List.append_assoc, List.cons_append, layout, layout_append, hcontent.depthAfter_eq]
  simp [layout, elementText]

theorem ValidTag.element_elementText {name : String} {attributes : Attributes}
    (h : ValidTag name attributes) {depth : Nat} {content : List Markup}
    (hcontent : Content (layout (depth + 1) false content)) :
    Element (elementText depth name attributes content) :=
  .tags h.head (hcontent.append (content_lead _ depth))

/-- Markup whose tags nest is laid out as content. -/
theorem Nested.content_layout {markup : List Markup} (h : Nested markup) (depth : Nat)
    (afterText : Bool) : Content (layout depth afterText markup) := by
  induction h generalizing depth afterText with
  | nil => exact .nil
  | @text text rest _ ih =>
    rw [layout]
    exact .data (data_escape (by simp) text) (ih depth true)
  | @emptyTag name attributes rest htag _ ih =>
    have htext := (content_lead afterText depth).append
      (.element (.empty htag.head) (ih depth false))
    simpa [layout] using htext
  | @element name attributes content rest htag hcontent _ ihcontent ih =>
    -- the content is laid out one level deeper, and the rest at this level again
    rw [layout_element depth afterText name attributes hcontent rest]
    have helement := htag.element_elementText (ihcontent (depth + 1) false)
    exact (content_lead afterText depth).append (.element helement (ih depth false))

/-- An element whose content nests is written as a document. -/
theorem document_documentText {name : String} {attributes : Attributes} {content : List Markup}
    (htag : ValidTag name attributes) (h : Nested content) :
    Document (documentText (element name attributes content)).toList := by
  have htext : (documentText (element name attributes content)).toList =
      declaration ++ lead false 0 ++ elementText 0 name attributes content ++ ['\n'] := by
    have hlayout := layout_element 0 false name attributes h []
    rw [List.append_nil, layout, List.append_nil] at hlayout
    simp [documentText, document, hlayout]
  rw [htext]
  refine .intro (fun _ => isSpace_of_mem_lead) ?_ (by simp [IsSpace])
  exact htag.element_elementText (h.content_layout 1 false)

/-! ## Allowed characters -/

/-- The names and values of attributes. -/
def Attributes.texts (attributes : Attributes) : List String :=
  attributes.flatMap fun a => [a.1, a.2]

/-- The texts in a piece of markup. -/
def Markup.texts : Markup → List String
  | .openTag name attributes => name :: attributes.texts
  | .closeTag name => [name]
  | .emptyTag name attributes => name :: attributes.texts
  | .text content => [content]

/-- All texts in markup have allowed characters only. -/
def Allowed (markup : List Markup) : Prop :=
  ∀ piece ∈ markup, ∀ text ∈ piece.texts, IsText text.toList

@[simp]
theorem isText_nil : IsText [] := by
  intro c hc
  cases hc

@[simp]
theorem isText_cons {c : Char} {text : List Char} : IsText (c :: text) ↔ IsChar c ∧ IsText text :=
  List.forall_mem_cons

@[simp]
theorem isText_append {first second : List Char} :
    IsText (first ++ second) ↔ IsText first ∧ IsText second :=
  List.forall_mem_append

/-- An escape is allowed if the character is: the characters that markup uses all are. -/
theorem isText_escapeChar_iff (c : Char) : IsText (escapeChar c) ↔ IsChar c := by
  unfold escapeChar
  split <;> simp <;> decide

@[simp]
theorem isText_escape_iff (text : String) : IsText (escape text) ↔ IsText text.toList := by
  unfold escape
  induction text.toList with
  | nil => rfl
  | cons c rest ih => rw [List.flatMap_cons, isText_append, isText_escapeChar_iff, ih, isText_cons]

theorem IsSpace.isChar {c : Char} (h : IsSpace c) : IsChar c := by
  rcases h with rfl | rfl | rfl | rfl <;> decide

@[simp]
theorem isText_lead (afterText : Bool) (depth : Nat) : IsText (lead afterText depth) :=
  fun _ hc => (isSpace_of_mem_lead hc).isChar

/-- What markup is made of is allowed. -/
theorem isChar_signs : IsChar '<' ∧ IsChar '>' ∧ IsChar '/' ∧ IsChar '=' ∧ IsChar '"' ∧
    IsChar ' ' ∧ IsChar '\n' := by
  decide

@[simp]
theorem isText_writeAttributes_iff (attributes : Attributes) :
    IsText (writeAttributes attributes) ↔
      ∀ text ∈ Attributes.texts attributes, IsText text.toList := by
  induction attributes with
  | nil => simp [writeAttributes, Attributes.texts]
  | cons a rest ih =>
    rw [Attributes.texts, List.flatMap_cons, ← Attributes.texts, List.forall_mem_append, ← ih]
    simp [writeAttributes, isChar_signs, and_assoc]

@[simp]
theorem allowed_nil : Allowed [] := by
  intro piece hpiece
  cases hpiece

theorem allowed_cons_iff {piece : Markup} {rest : List Markup} :
    Allowed (piece :: rest) ↔ (∀ text ∈ piece.texts, IsText text.toList) ∧ Allowed rest :=
  List.forall_mem_cons

@[simp]
theorem allowed_append_iff {first second : List Markup} :
    Allowed (first ++ second) ↔ Allowed first ∧ Allowed second :=
  List.forall_mem_append

@[simp]
theorem allowed_flatMap_iff {α : Type} {parts : List α} {markup : α → List Markup} :
    Allowed (parts.flatMap markup) ↔ ∀ part ∈ parts, Allowed (markup part) := by
  induction parts with
  | nil => simp
  | cons part rest ih => rw [List.flatMap_cons, allowed_append_iff, ih, List.forall_mem_cons]

@[simp]
theorem allowed_element_iff {name : String} {attributes : Attributes} {content : List Markup} :
    Allowed (element name attributes content) ↔
      IsText name.toList ∧ (∀ text ∈ Attributes.texts attributes, IsText text.toList) ∧
        Allowed content := by
  rw [element, List.cons_append, allowed_cons_iff, allowed_append_iff, allowed_cons_iff,
    Markup.texts, Markup.texts, List.forall_mem_cons, List.forall_mem_singleton]
  constructor
  · rintro ⟨⟨hname, hattributes⟩, hcontent, -⟩
    exact ⟨hname, hattributes, hcontent⟩
  · rintro ⟨hname, hattributes, hcontent⟩
    exact ⟨⟨hname, hattributes⟩, hcontent, hname, allowed_nil⟩

@[simp]
theorem allowed_textElement_iff {name : String} {attributes : Attributes} {text : String} :
    Allowed (textElement name attributes text) ↔
      IsText name.toList ∧ (∀ text ∈ Attributes.texts attributes, IsText text.toList) ∧
        IsText text.toList := by
  rw [textElement, allowed_element_iff, allowed_cons_iff, Markup.texts, List.forall_mem_singleton]
  simp

theorem isText_layout_iff (depth : Nat) (afterText : Bool) (markup : List Markup) :
    IsText (layout depth afterText markup) ↔ Allowed markup := by
  induction markup generalizing depth afterText with
  | nil => simp [layout]
  | cons piece rest ih =>
    rw [allowed_cons_iff]
    cases piece with
    | openTag name attributes =>
      rw [layout, ← ih (depth + 1) false, Markup.texts]
      simp [isChar_signs, and_assoc]
    | closeTag name =>
      rw [layout, ← ih (depth - 1) false, Markup.texts]
      simp [isChar_signs]
    | emptyTag name attributes =>
      rw [layout, ← ih depth false, Markup.texts]
      simp [isChar_signs, and_assoc]
    | text content =>
      rw [layout, ← ih depth true, Markup.texts]
      simp

theorem isText_declaration : IsText declaration := by
  unfold declaration
  simp only [String.reduceToList, isText_cons, isText_nil, and_true]
  decide

/-- The characters of a document are allowed exactly if those of the texts in it are. -/
theorem isText_documentText_iff (markup : List Markup) :
    IsText (documentText markup).toList ↔ Allowed markup := by
  rw [← isText_layout_iff 0 false markup]
  simp [documentText, document, isText_declaration, isChar_signs]

end TestCoverage.Xml

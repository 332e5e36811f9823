import Mathlib
import TestCoverage.Proofs.Xml.Grammar

/-!
# Reading markup

A document is read in three steps. It is cut into texts and tags, where a tag goes as far as the
next `>` that does not stand in a value (`Xml.pieces`). The tags are read with their attributes,
and of the texts only those that stand right behind the opening tag of an element that holds
text, with their entities replaced (`Xml.read`); the others are white space. The elements that the
tags make up are a tree (`Xml.readNodes`).

What is read of a document is the markup that it was laid out from (`Xml.read_documentText`) if
each element of that holds one text, or else elements (`Xml.Unmixed`), whatever its texts and the
values of its attributes are.
-/

namespace TestCoverage.Xml

/-! ## Entities -/

/-- The text with the predefined entities replaced. -/
def unescape : List Char → List Char
  | '&' :: 'l' :: 't' :: ';' :: rest => '<' :: unescape rest
  | '&' :: 'g' :: 't' :: ';' :: rest => '>' :: unescape rest
  | '&' :: 'a' :: 'm' :: 'p' :: ';' :: rest => '&' :: unescape rest
  | '&' :: 'a' :: 'p' :: 'o' :: 's' :: ';' :: rest => '\'' :: unescape rest
  | '&' :: 'q' :: 'u' :: 'o' :: 't' :: ';' :: rest => '"' :: unescape rest
  | c :: rest => c :: unescape rest
  | [] => []

theorem unescape_cons {c : Char} (h : c ≠ '&') (rest : List Char) :
    unescape (c :: rest) = c :: unescape rest := by
  simp [unescape, h]

theorem unescape_escapeChar_append (c : Char) (rest : List Char) :
    unescape (escapeChar c ++ rest) = c :: unescape rest := by
  unfold escapeChar
  split
  · rfl
  · rfl
  · rfl
  · rfl
  · rfl
  · next hamp _ _ => exact unescape_cons hamp rest

theorem unescape_escape (text : String) : unescape (escape text) = text.toList := by
  unfold escape
  induction text.toList with
  | nil => rfl
  | cons c rest ih => rw [List.flatMap_cons, unescape_escapeChar_append, ih]

/-- An escaped text has none of the characters that tags and values are cut at. -/
theorem not_mem_escape {c : Char} (hc : c ∈ ['<', '>', '"']) (text : String) :
    c ∉ escape text := by
  have hreference : ∀ entity ∈ entities, ∀ c ∈ ['<', '>', '"'], c ∉ '&' :: entity ++ [';'] := by
    simp [entities]
  have hsubset : ['<', '>', '"'] ⊆ ['<', '>', '&', '\'', '"'] := by simp
  intro h
  obtain ⟨d, -, h⟩ := List.mem_flatMap.mp h
  rcases escapeChar_cases d with ⟨entity, hentity, heq⟩ | ⟨heq, hd⟩
  · rw [heq] at h
    exact hreference entity hentity c hc h
  · rw [heq, List.mem_singleton] at h
    exact hd (hsubset (h ▸ hc))

/-! ## Texts and tags -/

/-- Where a character stands: in a text, in a tag, or in a value in a tag. -/
inductive Place where
  | text
  | tag
  | value
deriving DecidableEq

/-- The rest of a text or tag, and then tags and texts by turns. -/
def pieces : Place → List Char → List (List Char)
  | _, [] => [[]]
  | .text, c :: rest =>
    if c = '<' then [] :: pieces .tag rest else (pieces .text rest).modifyHead (c :: ·)
  | .tag, c :: rest =>
    if c = '>' then [] :: pieces .text rest
    else (pieces (if c = '"' then .value else .tag) rest).modifyHead (c :: ·)
  | .value, c :: rest =>
    (pieces (if c = '"' then .tag else .value) rest).modifyHead (c :: ·)

/-- These characters neither end nor begin a piece, and lead from one place to another. -/
def Leads (first : Place) (chars : List Char) (last : Place) : Prop :=
  ∀ rest, pieces first (chars ++ rest) = (pieces last rest).modifyHead (chars ++ ·)

theorem leads_nil (place : Place) : Leads place [] place :=
  fun rest => (congrFun List.modifyHead_id (pieces place rest)).symm

theorem Leads.append {first middle last : Place} {chars more : List Char}
    (hchars : Leads first chars middle) (hmore : Leads middle more last) :
    Leads first (chars ++ more) last := fun rest => by
  rw [List.append_assoc, hchars, hmore, List.modifyHead_modifyHead]
  simp [Function.comp_def]

theorem leads_of_forall {place : Place} {chars : List Char}
    (h : ∀ c ∈ chars, Leads place [c] place) : Leads place chars place := by
  induction chars with
  | nil => exact leads_nil place
  | cons c rest ih =>
    obtain ⟨hc, hrest⟩ := List.forall_mem_cons.mp h
    exact hc.append (ih hrest)

theorem leads_text {chars : List Char} (h : '<' ∉ chars) : Leads .text chars .text :=
  leads_of_forall fun c hc rest => by
    rw [List.singleton_append, pieces, if_neg (fun heq : c = '<' => h (heq ▸ hc))]
    rfl

theorem leads_tag {chars : List Char} (hend : '>' ∉ chars) (hquote : '"' ∉ chars) :
    Leads .tag chars .tag :=
  leads_of_forall fun c hc rest => by
    rw [List.singleton_append, pieces, if_neg (fun heq : c = '>' => hend (heq ▸ hc)),
      if_neg (fun heq : c = '"' => hquote (heq ▸ hc))]
    rfl

theorem leads_value {chars : List Char} (h : '"' ∉ chars) : Leads .value chars .value :=
  leads_of_forall fun c hc rest => by
    rw [List.singleton_append, pieces, if_neg (fun heq : c = '"' => h (heq ▸ hc))]
    rfl

/-- A value between quotes leads back into the tag. -/
theorem leads_quoted {chars : List Char} (h : '"' ∉ chars) :
    Leads .tag ('"' :: chars ++ ['"']) .tag := by
  have hopen : Leads .tag ['"'] .value := fun rest => by
    rw [List.singleton_append, pieces, if_neg (by decide), if_pos rfl]
    rfl
  have hclose : Leads .value ['"'] .tag := fun rest => by
    rw [List.singleton_append, pieces, if_pos rfl]
    rfl
  exact (hopen.append (leads_value h)).append hclose

theorem pieces_tag {space inside : List Char} (hspace : '<' ∉ space)
    (hinside : Leads .tag inside .tag) (rest : List Char) :
    pieces .text (space ++ '<' :: inside ++ '>' :: rest) =
      space :: inside :: pieces .text rest := by
  have hbegin (more : List Char) : pieces .text ('<' :: more) = [] :: pieces .tag more := by
    rw [pieces, if_pos rfl]
  have hend (more : List Char) : pieces .tag ('>' :: more) = [] :: pieces .text more := by
    rw [pieces, if_pos rfl]
  rw [List.append_assoc, List.cons_append, leads_text hspace, hbegin, hinside, hend]
  simp

/-! ## Tags -/

/-- The name of the attribute whose value comes next. -/
def readName : List Char → Option String
  | ' ' :: named =>
    if named.getLast? = some '=' then some (String.ofList named.dropLast) else none
  | _ => none

/-- The attributes, of what stands before, between and behind their quotes, with what stands
behind the last. -/
def readAttributes : List (List Char) → Option (Attributes × List Char)
  | before :: value :: rest => do
    let name ← readName before
    let (attributes, behind) ← readAttributes rest
    return ((name, String.ofList (unescape value)) :: attributes, behind)
  | [behind] => some ([], behind)
  | [] => none

/-- Whether a character at the beginning of a tag belongs to the name. -/
def isInName (c : Char) : Bool := c ≠ ' ' && c ≠ '/'

/-- The tag with this inside. -/
def readTag (inside : List Char) : Option Markup :=
  if inside.head? = some '/' then some (.closeTag (String.ofList inside.tail))
  else
    let name := String.ofList (inside.takeWhile isInName)
    match readAttributes ((inside.dropWhile isInName).splitOn '"') with
    | some (attributes, []) => some (.openTag name attributes)
    | some (attributes, ['/']) => some (.emptyTag name attributes)
    | _ => none

/-- The characters of names are none that tags use for something else. -/
theorem not_mem_of_isName {name : List Char} (h : isName name = true) {c : Char}
    (hc : c ∈ [' ', '"', '/', '<', '=', '>']) : c ∉ name := by
  have hother : [' ', '"', '/', '<', '=', '>'].all (fun c =>
      !(inRanges nameStartRanges c || inRanges nameRanges c)) = true := by
    decide
  intro hmem
  have hchar : (inRanges nameStartRanges c || inRanges nameRanges c) = true := by
    cases name with
    | nil => cases hmem
    | cons first rest =>
      obtain ⟨hfirst, hrest⟩ := Bool.and_eq_true_iff.mp h
      rcases List.mem_cons.mp hmem with rfl | hmem
      · rw [hfirst, Bool.true_or]
      · exact List.all_eq_true.mp hrest c hmem
  have hc := List.all_eq_true.mp hother c hc
  rw [hchar] at hc
  cases hc

theorem readName_write (name : String) :
    readName (' ' :: name.toList ++ ['=']) = some name := by
  simp [readName]

theorem readAttributes_write {attributes : Attributes}
    (h : ∀ a ∈ attributes, isName a.1.toList = true) (behind : List Char) (hbehind : '"' ∉ behind) :
    readAttributes ((writeAttributes attributes ++ behind).splitOn '"') =
      some (attributes, behind) := by
  induction attributes with
  | nil =>
    rw [writeAttributes, List.flatMap_nil, List.nil_append, List.splitOn_eq_singleton hbehind,
      readAttributes]
  | cons a rest ih =>
    obtain ⟨hname, hrest⟩ := List.forall_mem_cons.mp h
    have hbefore : '"' ∉ ' ' :: a.1.toList ++ ['='] := by
      simp [not_mem_of_isName hname]
    have hwritten : writeAttributes (a :: rest) ++ behind =
        (' ' :: a.1.toList ++ ['=']) ++ '"' ::
          (escape a.2 ++ '"' :: (writeAttributes rest ++ behind)) := by
      simp [writeAttributes]
    rw [hwritten, List.splitOn_append_cons_self_of_not_mem hbefore,
      List.splitOn_append_cons_self_of_not_mem (not_mem_escape (by simp) a.2), readAttributes,
      readName_write, ih hrest, unescape_escape]
    simp

theorem leads_writeAttributes {attributes : Attributes}
    (h : ∀ a ∈ attributes, isName a.1.toList = true) :
    Leads .tag (writeAttributes attributes) .tag := by
  induction attributes with
  | nil => exact leads_nil .tag
  | cons a rest ih =>
    obtain ⟨hname, hrest⟩ := List.forall_mem_cons.mp h
    have hbefore : Leads .tag (' ' :: a.1.toList ++ ['=']) .tag :=
      leads_tag (by simp [not_mem_of_isName hname]) (by simp [not_mem_of_isName hname])
    have hvalue : Leads .tag ('"' :: escape a.2 ++ ['"']) .tag :=
      leads_quoted (not_mem_escape (by simp) a.2)
    have hall := (hbefore.append hvalue).append (ih hrest)
    simpa [writeAttributes] using hall

section Tag

variable {name : String} {attributes : Attributes}

/-- The name of a tag goes as far as its attributes or the end of the tag. -/
theorem span_tag (hname : isName name.toList = true) (attributes : Attributes)
    (behind : List Char) (hbehind : behind = [] ∨ behind = ['/']) :
    (name.toList ++ (writeAttributes attributes ++ behind)).takeWhile isInName = name.toList ∧
      (name.toList ++ (writeAttributes attributes ++ behind)).dropWhile isInName =
        writeAttributes attributes ++ behind := by
  have hin : ∀ c ∈ name.toList, isInName c = true := by
    intro c hc
    have hspace : ' ' ∉ name.toList := not_mem_of_isName hname (by simp)
    have hslash : '/' ∉ name.toList := not_mem_of_isName hname (by simp)
    simp only [isInName, Bool.and_eq_true, decide_eq_true_eq]
    exact ⟨fun heq => hspace (heq ▸ hc), fun heq => hslash (heq ▸ hc)⟩
  have hout : ∀ c ∈ (writeAttributes attributes ++ behind).head?, isInName c = false := by
    cases attributes with
    | nil => rcases hbehind with rfl | rfl <;> simp [writeAttributes, isInName]
    | cons a rest => simp [writeAttributes, isInName]
  rw [List.takeWhile_append_of_pos hin, List.dropWhile_append_of_pos hin]
  cases hrest : writeAttributes attributes ++ behind with
  | nil => simp
  | cons c rest =>
    rw [hrest] at hout
    simp [hout c rfl]

theorem head?_ne_slash (hname : isName name.toList = true) (rest : List Char) :
    (name.toList ++ rest).head? ≠ some '/' := by
  have hslash : '/' ∉ name.toList := not_mem_of_isName hname (by simp)
  cases htext : name.toList with
  | nil =>
    rw [htext] at hname
    cases hname
  | cons c _ =>
    rw [htext] at hslash
    rintro ⟨⟩
    exact hslash List.mem_cons_self

theorem readTag_open (h : ValidTag name attributes) :
    readTag (name.toList ++ writeAttributes attributes) = some (.openTag name attributes) := by
  obtain ⟨hname, hattributes⟩ := span_tag h.name attributes [] (.inl rfl)
  have hread := readAttributes_write h.names [] (by simp)
  rw [List.append_nil] at hname hattributes hread
  rw [readTag, if_neg (head?_ne_slash h.name _), hname, hattributes, hread, String.ofList_toList]

theorem readTag_empty (h : ValidTag name attributes) :
    readTag (name.toList ++ (writeAttributes attributes ++ ['/'])) =
      some (.emptyTag name attributes) := by
  obtain ⟨hname, hattributes⟩ := span_tag h.name attributes ['/'] (.inr rfl)
  have hread := readAttributes_write h.names ['/'] (by simp)
  rw [readTag, if_neg (head?_ne_slash h.name _), hname, hattributes, hread, String.ofList_toList]
  rfl

theorem readTag_close (name : String) : readTag ('/' :: name.toList) = some (.closeTag name) := by
  rw [readTag, List.head?_cons, if_pos rfl, List.tail_cons, String.ofList_toList]

theorem leads_name (hname : isName name.toList = true) : Leads .tag name.toList .tag :=
  leads_tag (not_mem_of_isName hname (by simp)) (not_mem_of_isName hname (by simp))

end Tag

/-! ## Markup -/

/-- Whether a text that is read comes right behind this. -/
def Markup.holdsText (texts : List String) : Markup → Bool
  | .openTag name _ => texts.contains name
  | .closeTag _ | .emptyTag _ _ | .text _ => false

/-- The markup in some pieces, of which the first is a text that is read or passed over. `texts`
are the names of the elements that hold texts. -/
def readPieces (texts : List String) : Bool → List (List Char) → Option (List Markup)
  | reads, text :: tag :: rest =>
    (readTag tag).bind fun tag =>
      (readPieces texts (tag.holdsText texts) rest).map fun more =>
        (if reads then [.text (String.ofList (unescape text))] else []) ++ tag :: more
  | _, _ => some []

/-- The markup of a document. -/
def read (texts : List String) (document : List Char) : Option (List Markup) := do
  let content ← document.dropPrefix? declaration
  readPieces texts false (pieces .text content)

/-- Markup whose elements hold one text each or else elements, by their names. -/
inductive Unmixed (texts : List String) : List Markup → Prop where
  | nil : Unmixed texts []
  | emptyTag {name : String} {attributes : Attributes} {rest : List Markup}
      (htag : ValidTag name attributes) (h : Unmixed texts rest) :
      Unmixed texts (.emptyTag name attributes :: rest)
  | text {name : String} {attributes : Attributes} {text : String} {rest : List Markup}
      (htag : ValidTag name attributes) (hname : name ∈ texts) (h : Unmixed texts rest) :
      Unmixed texts (textElement name attributes text ++ rest)
  | element {name : String} {attributes : Attributes} {content rest : List Markup}
      (htag : ValidTag name attributes) (hname : name ∉ texts) (hcontent : Unmixed texts content)
      (h : Unmixed texts rest) : Unmixed texts (element name attributes content ++ rest)

variable {texts : List String}

theorem Unmixed.nested {markup : List Markup} (h : Unmixed texts markup) : Nested markup := by
  induction h with
  | nil => exact .nil
  | emptyTag htag _ ih => exact .emptyTag htag ih
  | text htag _ _ ih => exact .element htag (.text .nil) ih
  | element htag _ _ _ ihcontent ih => exact .element htag ihcontent ih

theorem Unmixed.append {first second : List Markup} (hfirst : Unmixed texts first)
    (hsecond : Unmixed texts second) : Unmixed texts (first ++ second) := by
  induction hfirst with
  | nil => exact hsecond
  | emptyTag htag _ ih => exact .emptyTag htag ih
  | text htag hname _ ih =>
    rw [List.append_assoc]
    exact .text htag hname ih
  | element htag hname hcontent _ _ ih =>
    rw [List.append_assoc]
    exact .element htag hname hcontent ih

theorem unmixed_element {name : String} {attributes : Attributes} {content : List Markup}
    (htag : ValidTag name attributes) (hname : name ∉ texts) (hcontent : Unmixed texts content) :
    Unmixed texts (element name attributes content) := by
  rw [← List.append_nil (element name attributes content)]
  exact .element htag hname hcontent .nil

theorem unmixed_textElement {name : String} {attributes : Attributes} (text : String)
    (htag : ValidTag name attributes) (hname : name ∈ texts) :
    Unmixed texts (textElement name attributes text) := by
  rw [← List.append_nil (textElement name attributes text)]
  exact .text htag hname .nil

theorem unmixed_flatMap {α : Type} {parts : List α} {markup : α → List Markup}
    (h : ∀ part ∈ parts, Unmixed texts (markup part)) : Unmixed texts (parts.flatMap markup) := by
  induction parts with
  | nil => exact .nil
  | cons part rest ih =>
    obtain ⟨hpart, hrest⟩ := List.forall_mem_cons.mp h
    rw [List.flatMap_cons]
    exact hpart.append (ih hrest)

/-- One text and the tag behind it are read. -/
theorem readPieces_tag {space inside : List Char} {tag : Markup} (hspace : '<' ∉ space)
    (hinside : Leads .tag inside .tag) (htag : readTag inside = some tag) (reads : Bool)
    (rest : List Char) :
    readPieces texts reads (pieces .text (space ++ '<' :: inside ++ '>' :: rest)) =
      (readPieces texts (tag.holdsText texts) (pieces .text rest)).map fun more =>
        (if reads then [.text (String.ofList (unescape space))] else []) ++ tag :: more := by
  rw [pieces_tag hspace hinside, readPieces, htag, Option.bind_some]

theorem lt_not_mem_lead (afterText : Bool) (depth : Nat) : '<' ∉ lead afterText depth := by
  intro h
  have hspace := isSpace_of_mem_lead h
  revert hspace
  unfold IsSpace
  decide

section

variable {name : String} {attributes : Attributes} (rest : List Char)

theorem readPieces_openTag (htag : ValidTag name attributes) (depth : Nat) :
    readPieces texts false (pieces .text
        (lead false depth ++ '<' :: (name.toList ++ writeAttributes attributes) ++ '>' :: rest)) =
      (readPieces texts (texts.contains name) (pieces .text rest)).map
        (.openTag name attributes :: ·) := by
  have hinside := (leads_name htag.name).append (leads_writeAttributes htag.names)
  exact readPieces_tag (lt_not_mem_lead false depth) hinside (readTag_open htag) false rest

theorem readPieces_emptyTag (htag : ValidTag name attributes) (depth : Nat) :
    readPieces texts false (pieces .text
        (lead false depth ++ '<' :: (name.toList ++ (writeAttributes attributes ++ ['/'])) ++
          '>' :: rest)) =
      (readPieces texts false (pieces .text rest)).map (.emptyTag name attributes :: ·) := by
  have hslash : Leads .tag ['/'] .tag := leads_tag (by simp) (by simp)
  have hinside := (leads_name htag.name).append ((leads_writeAttributes htag.names).append hslash)
  exact readPieces_tag (lt_not_mem_lead false depth) hinside (readTag_empty htag) false rest

theorem readPieces_closeTag (hname : isName name.toList = true) {space : List Char}
    (hspace : '<' ∉ space) (reads : Bool) :
    readPieces texts reads (pieces .text (space ++ '<' :: ('/' :: name.toList) ++ '>' :: rest)) =
      (readPieces texts false (pieces .text rest)).map fun more =>
        (if reads then [.text (String.ofList (unescape space))] else []) ++
          .closeTag name :: more := by
  have hslash : Leads .tag ['/'] .tag := leads_tag (by simp) (by simp)
  exact readPieces_tag hspace (hslash.append (leads_name hname)) (readTag_close name) reads rest

end

/-- What was laid out is read back, in front of whatever stands behind it. -/
theorem Unmixed.readPieces_layout {markup : List Markup} (h : Unmixed texts markup) (depth : Nat)
    (rest : List Char) :
    readPieces texts false (pieces .text (layout depth false markup ++ rest)) =
      (readPieces texts false (pieces .text rest)).map (markup ++ ·) := by
  induction h generalizing depth rest with
  | nil => simp [layout]
  | @emptyTag name attributes more htag _ ih =>
    have hlayout : layout depth false (.emptyTag name attributes :: more) ++ rest =
        lead false depth ++ '<' :: (name.toList ++ (writeAttributes attributes ++ ['/'])) ++
          '>' :: (layout depth false more ++ rest) := by
      simp [layout]
    rw [hlayout, readPieces_emptyTag _ htag, ih, Option.map_map]
    rfl
  | @text name attributes text more htag hname _ ih =>
    have hlayout : layout depth false (textElement name attributes text ++ more) ++ rest =
        lead false depth ++ '<' :: (name.toList ++ writeAttributes attributes) ++
          '>' :: (escape text ++ '<' :: ('/' :: name.toList) ++
            '>' :: (layout depth false more ++ rest)) := by
      simp [textElement, Xml.element, layout, lead]
    have htext : '<' ∉ escape text := not_mem_escape (by simp) text
    rw [hlayout, readPieces_openTag _ htag, List.contains_iff_mem.mpr hname,
      readPieces_closeTag _ htag.name htext, ih, Option.map_map, Option.map_map, if_pos rfl,
      unescape_escape, String.ofList_toList]
    rfl
  | @element name attributes content more htag hname hcontent _ ihcontent ih =>
    have hlayout : layout depth false (Xml.element name attributes content ++ more) ++ rest =
        lead false depth ++ '<' :: (name.toList ++ writeAttributes attributes) ++
          '>' :: (layout (depth + 1) false content ++
            (lead (endsInText false content) depth ++ '<' :: ('/' :: name.toList) ++
              '>' :: (layout depth false more ++ rest))) := by
      rw [layout_element depth false name attributes hcontent.nested, elementText]
      simp
    have hcontains : texts.contains name = false :=
      Bool.eq_false_iff.mpr fun h => hname (List.contains_iff_mem.mp h)
    rw [hlayout, readPieces_openTag _ htag, hcontains, ihcontent,
      readPieces_closeTag _ htag.name (lt_not_mem_lead _ depth), ih, Option.map_map, Option.map_map,
      Option.map_map]
    congr 1
    funext tail
    simp [Xml.element]

/-- What is read of a document is the markup that it was laid out from. -/
theorem read_documentText {markup : List Markup} (h : Unmixed texts markup) :
    read texts (documentText markup).toList = some markup := by
  have htext : (documentText markup).toList =
      declaration ++ (layout 0 false markup ++ ['\n']) := by
    simp [documentText, document]
  have hdeclaration : (declaration == declaration) = true := beq_self_eq_true _
  rw [htext, read, List.dropPrefix?_append_of_beq _ hdeclaration, Option.bind_eq_bind,
    Option.bind_some, h.readPieces_layout]
  exact congrArg some (List.append_nil markup)

/-- A tag does not end in a value, and space between tags is passed over. -/
example :
    read ["m"] (declaration ++ "\n<r>\n  <m a=\"&quot;>\">x &lt; y</m>\n</r>\n".toList) =
      some [.openTag "r" [], .openTag "m" [("a", "\">")], .text "x < y", .closeTag "m",
        .closeTag "r"] := by
  rfl

/-! ## Trees -/

/-- A part of the tree that the elements of a document are. -/
inductive Node where
  | text (text : String)
  | element (name : String) (attributes : Attributes) (content : List Node)

/-- Puts a piece of markup in front of what was read from the end: the nodes behind it in the same
element, and for each element that is still to be opened its name with the nodes behind it. -/
def grow : Markup → List Node × List (String × List Node) →
    Option (List Node × List (String × List Node))
  | .text text, (behind, outer) => some (.text text :: behind, outer)
  | .emptyTag name attributes, (behind, outer) =>
    some (.element name attributes [] :: behind, outer)
  | .closeTag name, (behind, outer) => some ([], (name, behind) :: outer)
  | .openTag name attributes, (content, (closed, behind) :: outer) =>
    if name = closed then some (.element name attributes content :: behind, outer) else none
  | .openTag _ _, (_, []) => none

/-- The nodes that some markup makes up, if its tags nest. -/
def readNodes (markup : List Markup) : Option (List Node) :=
  match markup.foldrM grow ([], []) with
  | some (nodes, []) => some nodes
  | _ => none

/-- The markup makes up these nodes wherever it stands. -/
def MakesUp (markup : List Markup) (nodes : List Node) : Prop :=
  ∀ behind outer, markup.foldrM grow (behind, outer) = some (nodes ++ behind, outer)

theorem makesUp_nil : MakesUp [] [] := fun _ _ => rfl

theorem MakesUp.append {first second : List Markup} {nodes more : List Node}
    (hfirst : MakesUp first nodes) (hsecond : MakesUp second more) :
    MakesUp (first ++ second) (nodes ++ more) := fun behind outer => by
  rw [List.foldrM_append, hsecond, Option.bind_eq_bind, Option.bind_some, hfirst,
    List.append_assoc]

theorem makesUp_emptyTag (name : String) (attributes : Attributes) :
    MakesUp [.emptyTag name attributes] [.element name attributes []] := fun _ _ => rfl

theorem makesUp_text (text : String) : MakesUp [.text text] [.text text] := fun _ _ => rfl

theorem MakesUp.element {content : List Markup} {nodes : List Node} (h : MakesUp content nodes)
    (name : String) (attributes : Attributes) :
    MakesUp (Xml.element name attributes content) [.element name attributes nodes] :=
  fun behind outer => by
    have hclose : [Markup.closeTag name].foldrM grow (behind, outer) =
        some ([], (name, behind) :: outer) := rfl
    rw [Xml.element, List.cons_append, List.foldrM_cons, List.foldrM_append, hclose,
      Option.bind_eq_bind, Option.bind_some, h, Option.bind_some, List.append_nil, grow, if_pos rfl,
      List.singleton_append]

theorem makesUp_flatMap {α : Type} {markup : α → List Markup} {node : α → Node}
    (h : ∀ part, MakesUp (markup part) [node part]) (parts : List α) :
    MakesUp (parts.flatMap markup) (parts.map node) := by
  induction parts with
  | nil => exact makesUp_nil
  | cons part rest ih =>
    rw [List.flatMap_cons, List.map_cons]
    exact (h part).append ih

theorem MakesUp.readNodes_eq {markup : List Markup} {nodes : List Node}
    (h : MakesUp markup nodes) : readNodes markup = some nodes := by
  rw [readNodes, h, List.append_nil]

end TestCoverage.Xml

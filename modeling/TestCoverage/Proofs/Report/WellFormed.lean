import Mathlib
import TestCoverage.Proofs.Report.PerTest
import TestCoverage.Proofs.Text.ModifiedUtf8
import TestCoverage.Proofs.Xml.Reading

/-!
# Per-test reports as XML

A per-test report is the text of a document (`perTestReport_eq_documentText`): every test is
markup that nests, so the report has the form of XML whatever it says
(`TestCoverageEntry.unmixed_markup`). Its characters are those of XML as long as those of the
identifiers, messages and paths are (`TestCoverageEntry.isText_markup_iff`); a report copies
the others as they are.

* `PerTestWriter.writeAll_document`: what is left is a document, and it is well formed exactly
  if the texts of the tests have only characters that XML allows.
* `PerTestWriter.writeAll_control_character`: with a control character it is not.
-/

namespace TestCoverage

open Xml

/-! ## Numbers -/

theorem Xml.isChar_of_isDigit {c : Char} (h : c.isDigit = true) : IsChar c := by
  have hrange : 48 ≤ c.toNat ∧ c.toNat ≤ 57 := Char.isDigit_iff_toNat.mp h
  refine List.any_eq_true.mpr ⟨(0x20, 0xD7FF), by simp [charRanges], ?_⟩
  simp
  omega

@[simp]
theorem Xml.isText_toDigits (n : Nat) : IsText (Nat.toDigits 10 n) := fun _ hc =>
  isChar_of_isDigit (Nat.isDigit_of_mem_toDigits (by decide) (by decide) hc)

theorem Duration.isText_seconds (d : Duration) : IsText d.seconds.toList := by
  have hpoint : IsChar '.' := by decide
  have hzero : IsChar '0' := by decide
  have hthree : ∀ n, IsText (threeDigits n).toList := by
    intro n c hc
    rw [threeDigits, String.toList_ofList, List.leftpad, List.mem_append] at hc
    rcases hc with hc | hc
    · rw [List.eq_of_mem_replicate hc]
      exact hzero
    · exact isText_toDigits n c hc
  simp [seconds, hpoint, hthree]

theorem Xml.isText_intercalate {separator : List Char} (hseparator : IsText separator)
    {texts : List (List Char)} (h : ∀ text ∈ texts, IsText text) :
    IsText (separator.intercalate texts) := by
  induction texts with
  | nil => exact isText_nil
  | cons first rest ih =>
    obtain ⟨hfirst, hrest⟩ := List.forall_mem_cons.mp h
    cases rest with
    | nil => simpa using hfirst
    | cons second others =>
      rw [List.intercalate_cons_cons, isText_append, isText_append]
      exact ⟨⟨hfirst, hseparator⟩, ih hrest⟩

theorem LineSet.Range.isText_render (range : LineSet.Range) : IsText range.render.toList := by
  have hdash : IsChar '-' := by decide
  unfold render
  split <;> simp [hdash]

theorem LineSet.isText_render (lines : LineSet) : IsText lines.render.toList := by
  rw [render, String.toList_intercalate]
  refine isText_intercalate (by simp +decide) ?_
  simp only [List.forall_mem_map]
  exact fun range _ => range.isText_render

/-! ## Markup of tests -/

/-- The elements that hold texts. -/
def textNames : List String := ["message", "lines"]

namespace TestCoverageEntry

/-- What a test says in words of its own: its name, its message and the paths of its files. -/
def texts (entry : TestCoverageEntry) : List String :=
  entry.id :: (entry.result.message.toList ++ entry.coverage.files.map Prod.fst)

theorem validTag_attributes (entry : TestCoverageEntry) : ValidTag "test" entry.attributes where
  name := by decide
  names := by simp [attributes]; decide
  nodup := by simp [attributes]

theorem allowed_attributes_iff (entry : TestCoverageEntry) :
    (∀ text ∈ Attributes.texts entry.attributes, IsText text.toList) ↔
      IsText entry.id.toList := by
  have houtcome : IsText entry.result.outcome.render.toList := by
    cases entry.result.outcome <;> simp +decide [Outcome.render]
  have hseconds := entry.duration.isText_seconds
  simp +decide [attributes, Attributes.texts, houtcome, hseconds]

theorem allowed_fileMarkup_iff (file : String × LineSet) :
    Allowed (fileMarkup file) ↔ IsText file.1.toList := by
  have hlines := file.2.isText_render
  simp +decide [fileMarkup, Attributes.texts, hlines]

theorem unmixed_fileMarkup (file : String × LineSet) : Unmixed textNames (fileMarkup file) := by
  refine unmixed_element ⟨by decide, by simp; decide, by simp⟩ (by decide) ?_
  exact unmixed_textElement _ (validTag_plain (by decide)) (by decide)

/-- Each element in the markup of a test holds one text or else elements, whatever the test
says. -/
theorem unmixed_markup (entry : TestCoverageEntry) : Unmixed textNames entry.markup := by
  unfold markup
  split
  · exact .emptyTag entry.validTag_attributes .nil
  · refine unmixed_element entry.validTag_attributes (by decide) (Unmixed.append ?_ ?_)
    · refine unmixed_flatMap fun message _ => ?_
      exact unmixed_textElement message (validTag_plain (by decide)) (by decide)
    · exact unmixed_flatMap fun file _ => unmixed_fileMarkup file

theorem nested_markup (entry : TestCoverageEntry) : Nested entry.markup :=
  entry.unmixed_markup.nested

/-- The markup of a test is allowed exactly if its own texts are. -/
theorem allowed_markup_iff (entry : TestCoverageEntry) :
    Allowed entry.markup ↔ ∀ text ∈ entry.texts, IsText text.toList := by
  have htexts : (∀ text ∈ entry.texts, IsText text.toList) ↔ IsText entry.id.toList ∧
      (∀ message ∈ entry.result.message.toList, IsText message.toList) ∧
        ∀ file ∈ entry.coverage.files, IsText file.1.toList := by
    rw [texts, List.forall_mem_cons, List.forall_mem_append, List.forall_mem_map]
  have hname : IsText "test".toList := by simp +decide
  have hmessage : IsText "message".toList := by simp +decide
  rw [htexts]
  unfold markup
  split
  case isTrue h =>
    rw [Bool.and_eq_true] at h
    have hmessage : entry.result.message = none := Option.isNone_iff_eq_none.mp h.1
    have hfiles : entry.coverage.files = [] := List.isEmpty_iff.mp h.2
    rw [allowed_cons_iff, Markup.texts, List.forall_mem_cons, allowed_attributes_iff, hmessage,
      hfiles]
    simp +decide
  case isFalse h =>
    rw [allowed_element_iff, allowed_attributes_iff, allowed_append_iff, filesMarkup,
      allowed_flatMap_iff, allowed_flatMap_iff]
    simp only [allowed_textElement_iff, allowed_fileMarkup_iff, hname, hmessage]
    simp [Attributes.texts]

/-- A test ends with a tag. -/
theorem endsInText_markup (entry : TestCoverageEntry) : endsInText false entry.markup = false := by
  unfold markup
  split
  · rfl
  · rw [element, endsInText_append]
    rfl

end TestCoverageEntry

/-! ## Reports -/

/-- A report is the document whose element `report` has the tests as its content. -/
theorem perTestReport_eq_documentText (entries : List TestCoverageEntry) :
    perTestReport entries =
      documentText (element "report" [] (entries.flatMap TestCoverageEntry.markup)) := by
  have hnested : Nested (entries.flatMap TestCoverageEntry.markup) :=
    nested_flatMap fun entry _ => entry.nested_markup
  have htests : layout 1 false (entries.flatMap TestCoverageEntry.markup) =
      entries.flatMap fun entry => layout 1 false entry.markup :=
    layout_flatMap 1 TestCoverageEntry.nested_markup TestCoverageEntry.endsInText_markup entries
  have hends := endsInText_flatMap TestCoverageEntry.endsInText_markup entries
  have hlayout : layout 0 false (element "report" [] (entries.flatMap TestCoverageEntry.markup)) =
      layout 0 false [.openTag "report" []] ++
        (layout 1 false (entries.flatMap TestCoverageEntry.markup) ++
          layout 1 false [.closeTag "report"]) := by
    rw [element, List.cons_append, ← List.singleton_append, layout_append, layout_append]
    show _ ++ (_ ++ layout (depthAfter 1 _) (endsInText false _) _) = _
    rw [hnested.depthAfter_eq, hends]
    rfl
  rw [← String.toList_inj]
  simp [perTestReport, PerTestWriter.opening, PerTestWriter.closing, documentText, document,
    render, hlayout, htests, List.flatMap_map]

theorem document_perTestReport (entries : List TestCoverageEntry) :
    Document (perTestReport entries).toList := by
  rw [perTestReport_eq_documentText]
  exact document_documentText (validTag_plain (by decide))
    (nested_flatMap fun entry _ => entry.nested_markup)

/-- The characters of a report are allowed exactly if those of the tests' own texts are. -/
theorem isText_perTestReport_iff (entries : List TestCoverageEntry) :
    IsText (perTestReport entries).toList ↔
      ∀ entry ∈ entries, ∀ text ∈ entry.texts, IsText text.toList := by
  rw [perTestReport_eq_documentText, isText_documentText_iff, allowed_element_iff,
    allowed_flatMap_iff]
  simp +decide [Attributes.texts, TestCoverageEntry.allowed_markup_iff]

/-! ## Writing -/

namespace PerTestWriter

/-- A report has the form of XML whatever its tests say, and it is well formed exactly if they
say it with characters that XML allows. -/
theorem writeAll_document (entries : List TestCoverageEntry) :
    ((fresh (.fresh none)).writeAll entries).2 = .ok () ∧
      ∃ text, Text.Utf8.decode ((fresh (.fresh none)).writeAll entries).1.sink.written = some text ∧
        Document text ∧
          (WellFormed text ↔ ∀ entry ∈ entries, ∀ said ∈ entry.texts, IsText said.toList) := by
  obtain ⟨hwritten, -, hok⟩ := writeAll_eq entries
  refine ⟨hok, (perTestReport entries).toList, ?_, document_perTestReport entries, ?_⟩
  · rw [hwritten]
    exact Text.Utf8.decode_encode _
  · rw [← isText_perTestReport_iff]
    constructor
    · exact WellFormed.isText
    · exact WellFormed.mk (document_perTestReport entries)

/-- A message with a control character makes a report that is not well formed. -/
theorem writeAll_control_character :
    ¬∀ entries : List TestCoverageEntry, ∃ text,
      Text.Utf8.decode ((fresh (.fresh none)).writeAll entries).1.sink.written = some text ∧
        WellFormed text := by
  intro h
  have hescape : ¬IsChar '\x1b' := by decide
  obtain ⟨text, hread, hwell⟩ := h [⟨"T", .zero, ⟨.failure, some "\x1b[31mred"⟩, .empty⟩]
  rw [(writeAll_eq _).1, Bytes.ofString, Text.Utf8.decode_encode, Option.some.injEq] at hread
  rw [← hread] at hwell
  have hsaid := (isText_perTestReport_iff _).mp hwell.isText _ (List.mem_singleton_self _)
    "\x1b[31mred" (by simp [TestCoverageEntry.texts])
  exact hescape (hsaid _ (by simp))

end PerTestWriter

end TestCoverage

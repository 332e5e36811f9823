import Mathlib
import TestCoverage.ClassFile.Definition
import TestCoverage.ClassFile.Minimal
import TestCoverage.Proofs.ClassFile.Prefix

/-!
# The smallest class files read back

`minimal` puts its constants into fixed slots and refers to them by number, and only with a source
file there is an attribute. The bytes are those of a layout (`Layout.write_minimal`), so what is known
of laid out class files holds of them.

* `Sequential.consumes`: where a sequential reader reads some bytes to their end, it needs all of
  them.
* `consumes_minimal`: so the header needs all bytes of a smallest class file, which ends with the
  last class attribute.
* `read_minimal`: a smallest class file says what it was written for, and is cut off wherever it ends
  too early.
-/

namespace TestCoverage.ClassFile

/-! ## Headers that take all bytes -/

/-- A sequential reader that takes some bytes for a value has consumed them. -/
theorem Sequential.consumes {α : Type} {reader : Reader α} {bytes : Bytes} {value : α}
    (h : Sequential reader) (hreads : Reads reader bytes value) : Consumes reader bytes value := by
  obtain ⟨front, hfront, hconsumes⟩ := h _ _ _ (hreads 0 [])
  have hwhole : bytes = front := by simpa using hfront
  rwa [hwhole]

/-- Bytes that are all consumed have this header, and of fewer of them some field is cut off. -/
theorem Consumes.read_header {bytes : Bytes} {header : Header}
    (h : Consumes Header.reader bytes header) :
    Header.read bytes = .ok header ∧
      ∀ part, part <+: bytes → part ≠ bytes →
        ∃ place ≤ part.length, Header.read part = .error (.truncated place) := by
  constructor
  · have hread := h.reads 0 []
    rw [List.append_nil] at hread
    rw [Header.read, StateT.run, Cursor.start, hread]
    rfl
  · intro part hpart hne
    obtain ⟨place, hplace, hcut⟩ := h.cut part hpart hne 0
    rw [Nat.zero_add] at hplace
    refine ⟨place, hplace, ?_⟩
    rw [Header.read, StateT.run, Cursor.start, hcut]
    rfl

/-! ## The layout of a smallest class file -/

/-- A text constant. The length of its bytes has two bytes itself. -/
def PoolConstant.text (text : String)
    (fits : (Text.ModifiedUtf8.encode text.toList).length ≤ 65535) : PoolConstant :=
  .utf8 (Text.ModifiedUtf8.encode text.toList) (Nat.lt_succ_of_le fits)

/-- The attribute that says the source file: its name is in slot five, the file in slot six. -/
def sourceAttribute : Attribute := ⟨5, u2 6, by decide⟩

namespace Layout

section
variable {name marker : String} {source : Option String}
  (hname : (Text.ModifiedUtf8.encode name.toList).length ≤ 65535)
  (hsource : (Text.ModifiedUtf8.encode (source.getD "").toList).length ≤ 65535)
  (hmarker : (Text.ModifiedUtf8.encode marker.toList).length ≤ 65535)

/-- The layout of a smallest class file. The constants have the slots one to seven, in order. -/
def minimal : Layout where
  minorVersion := 0
  majorVersion := 52
  constants :=
    [.text name hname, .class 1, .text "java/lang/Object" (by decide), .class 3,
      .text "SourceFile" (by decide), .text (source.getD "") hsource, .text marker hmarker]
  constants_fit := show 8 < 65536 by decide
  flags := 0x21
  thisClass := 2
  superClass := 4
  interfaces := []
  interfaces_fit := by decide
  fields := []
  fields_fit := by decide
  methods := []
  methods_fit := by decide
  attributes := source.toList.map fun _ => sourceAttribute
  attributes_fit := by
    cases source with
    | none => show 0 < 65536; decide
    | some _ => show 1 < 65536; decide

theorem write_minimal :
    (minimal hname hsource hmarker).write = ClassFile.minimal name source marker := by
  have hmagic : [0xCA, 0xFE, 0xBA, 0xBE] = Bytes.bigEndian 4 magic := by decide
  have hconstants : (minimal hname hsource hmarker).constants.flatMap PoolConstant.write =
      writeText name ++ writeClass 1 ++ writeText "java/lang/Object" ++ writeClass 3 ++
        writeText "SourceFile" ++ writeText (source.getD "") ++ writeText marker := by
    simp only [minimal, List.flatMap_cons, List.flatMap_nil, List.append_nil, List.append_assoc]
    rfl
  have hattributes : writeTable Attribute.write (minimal hname hsource hmarker).attributes =
      writeSourceFile source := by
    cases source <;> rfl
  unfold Layout.write ClassFile.minimal
  rw [hconstants, hattributes, hmagic]
  simp only [List.append_assoc]
  rfl

theorem className?_minimal :
    (minimal hname hsource hmarker).className? 2 = some name :=
  Text.ModifiedUtf8.decode_encode name

theorem superName?_minimal :
    (minimal hname hsource hmarker).superName? = some "java/lang/Object" :=
  Text.ModifiedUtf8.decode_encode "java/lang/Object"

theorem text?_minimal_attribute :
    (minimal hname hsource hmarker).text? 5 = some "SourceFile" :=
  Text.ModifiedUtf8.decode_encode "SourceFile"

theorem text?_minimal_source :
    (minimal hname hsource hmarker).text? 6 = some (source.getD "") :=
  Text.ModifiedUtf8.decode_encode (source.getD "")

theorem namesSource_minimal : (minimal hname hsource hmarker).NamesSource sourceAttribute :=
  ⟨text?_minimal_attribute hname hsource hmarker, rfl⟩

theorem sourceOf?_minimal :
    (minimal hname hsource hmarker).sourceOf? sourceAttribute = some (source.getD "") :=
  text?_minimal_source hname hsource hmarker

theorem sourceFile?_minimal : (minimal hname hsource hmarker).sourceFile? = source := by
  cases source with
  | none => rfl
  | some file =>
    have hnames := namesSource_minimal hname hsource hmarker
    have hfile := sourceOf?_minimal hname hsource hmarker
    have hone : (minimal hname hsource hmarker).attributes = [sourceAttribute] := rfl
    rw [sourceFile?, hone, List.filter_cons_of_pos (by simpa using hnames)]
    exact hfile

end

end Layout

variable {name marker : String} {source : Option String}

/-- All bytes of a smallest class file are taken for its header. -/
theorem consumes_minimal (hname : (Text.ModifiedUtf8.encode name.toList).length ≤ 65535)
    (hsource : (Text.ModifiedUtf8.encode (source.getD "").toList).length ≤ 65535)
    (hmarker : (Text.ModifiedUtf8.encode marker.toList).length ≤ 65535) :
    Consumes Header.reader (minimal name source marker)
      ⟨0, 52, name, some "java/lang/Object", source⟩ := by
  have hattribute : ∀ attr ∈ (Layout.minimal hname hsource hmarker).attributes,
      attr = sourceAttribute := by
    intro attr hattr
    obtain ⟨_, -, rfl⟩ := List.mem_map.mp hattr
    rfl
  have hread := reads_header (Layout.className?_minimal hname hsource hmarker)
    (.inr ⟨_, Layout.superName?_minimal hname hsource hmarker⟩)
    (fun attr hattr => by
      rw [hattribute attr hattr]
      exact ⟨_, Layout.text?_minimal_attribute hname hsource hmarker⟩)
    (fun attr hattr _ => by
      rw [hattribute attr hattr]
      exact ⟨_, Layout.sourceOf?_minimal hname hsource hmarker⟩)
  rw [Layout.write_minimal, Layout.superName?_minimal, Layout.sourceFile?_minimal] at hread
  exact sequential_reader.consumes hread

/-- A smallest class file says what it was written for, whatever characters the texts have, as long as
their lengths fit: no source file and an empty one are told apart. Of fewer of its bytes some field is
cut off. -/
theorem read_minimal (hname : (Text.ModifiedUtf8.encode name.toList).length ≤ 65535)
    (hsource : ∀ file ∈ source, (Text.ModifiedUtf8.encode file.toList).length ≤ 65535)
    (hmarker : (Text.ModifiedUtf8.encode marker.toList).length ≤ 65535) :
    let bytes := minimal name source marker
    Header.read bytes = .ok ⟨0, 52, name, some "java/lang/Object", source⟩ ∧
      (∀ part, part <+: bytes → part ≠ bytes →
        ∃ place ≤ part.length, Header.read part = .error (.truncated place)) ∧
      ∀ location, ClassDefinition.read location bytes =
        .ok ⟨name, source, location, .ofBytes bytes, bytes⟩ := by
  intro bytes
  have hfile : (Text.ModifiedUtf8.encode (source.getD "").toList).length ≤ 65535 := by
    cases source with
    | none => exact Nat.zero_le _
    | some file => exact hsource file rfl
  obtain ⟨hread, hcut⟩ := (consumes_minimal hname hfile hmarker).read_header
  refine ⟨hread, hcut, fun location => ?_⟩
  rw [ClassDefinition.read, hread]
  rfl

/-- U+0000 takes two bytes and a supplementary character six, an empty source file is one, and the
marker has as many bytes as a text may have. -/
theorem read_minimal_longest_marker :
    let name := "a\x00😀"
    let marker := String.ofList (List.replicate 21845 '€')
    let bytes := minimal name (some "") marker
    (Text.ModifiedUtf8.encode name.toList).length = 9 ∧
      (Text.ModifiedUtf8.encode marker.toList).length = 65535 ∧
      Header.read bytes = .ok ⟨0, 52, name, some "java/lang/Object", some ""⟩ ∧
      (∀ part, part <+: bytes → part ≠ bytes →
        ∃ place ≤ part.length, Header.read part = .error (.truncated place)) ∧
      ∀ location, ClassDefinition.read location bytes =
        .ok ⟨name, some "", location, .ofBytes bytes, bytes⟩ := by
  intro name marker bytes
  have hname : (Text.ModifiedUtf8.encode name.toList).length = 9 := by decide
  have hsource : ∀ file ∈ some "", (Text.ModifiedUtf8.encode file.toList).length ≤ 65535 := by
    decide
  have hmarker : (Text.ModifiedUtf8.encode marker.toList).length = 65535 := by
    have hchar : (Text.ModifiedUtf8.encodeChar '€').length = 3 := by decide
    rw [String.toList_ofList, Text.ModifiedUtf8.encode, List.length_flatMap, List.map_replicate,
      hchar, List.sum_replicate]
    rfl
  exact ⟨hname, hmarker, read_minimal (by omega) hsource (by omega)⟩

end TestCoverage.ClassFile

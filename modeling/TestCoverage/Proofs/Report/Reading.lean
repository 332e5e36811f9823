import Mathlib
import TestCoverage.Proofs.Lines.Ranges
import TestCoverage.Proofs.Report.WellFormed

/-!
# Reading per-test reports

What a per-test report says of its tests can be read from its text (`readReport?`), and what is
read is what was written, whatever the names, messages and paths are.

* `readReport?_perTestReport`: the tests of a report are read back in order, each with its outcome,
  its message if it has one, and its files with their lines.
* `PerTestWriter.writeAll_read`: so lists of tests that differ in any of this leave different
  reports.
-/

namespace TestCoverage

open Xml

/-- What a report says of a test, apart from the time that it took. -/
structure TestRecord where
  id : String
  outcome : Outcome
  message : Option String
  /-- The covered lines of each file, in the order in which the report has the files. -/
  files : List (String × LineSet)

def TestCoverageEntry.record (entry : TestCoverageEntry) : TestRecord :=
  ⟨entry.id, entry.result.outcome, entry.result.message, entry.coverage.files⟩

/-! ## Reading -/

/-- The path and the lines in an element for a file. -/
def readFile? : Node → Option (String × LineSet)
  | .element "file" [("path", path)] [.element "lines" [] [.text lines]] =>
    (LineSet.read? lines).map fun lines => (path, lines)
  | _ => none

/-- The message and the files in an element for a test. -/
def readContent? : List Node → Option (Option String × List (String × LineSet))
  | .element "message" [] [.text message] :: files =>
    (files.mapM readFile?).map fun files => (some message, files)
  | files => (files.mapM readFile?).map fun files => (none, files)

/-- What an element for a test says. -/
def readTest? : Node → Option TestRecord
  | .element "test" [("id", id), ("duration", _), ("result", result)] content => do
    let outcome ← Outcome.read? result
    let (message, files) ← readContent? content
    return ⟨id, outcome, message, files⟩
  | _ => none

/-- What a report says of its tests. -/
def readReport? (report : List Char) : Option (List TestRecord) := do
  let markup ← read textNames report
  match ← readNodes markup with
  | [.element "report" [] tests] => tests.mapM readTest?
  | _ => none

/-! ## Markup as a tree -/

def fileNode (file : String × LineSet) : Node :=
  .element "file" [("path", file.1)] [.element "lines" [] [.text file.2.render]]

def messageNode (message : String) : Node := .element "message" [] [.text message]

def TestCoverageEntry.node (entry : TestCoverageEntry) : Node :=
  .element "test" entry.attributes
    (entry.result.message.toList.map messageNode ++ entry.coverage.files.map fileNode)

theorem makesUp_fileMarkup (file : String × LineSet) : MakesUp (fileMarkup file) [fileNode file] :=
  ((makesUp_text file.2.render).element "lines" []).element "file" [("path", file.1)]

theorem TestCoverageEntry.makesUp_markup (entry : TestCoverageEntry) :
    MakesUp entry.markup [entry.node] := by
  unfold markup node
  split
  case isTrue h =>
    rw [Bool.and_eq_true] at h
    have hmessage : entry.result.message = none := Option.isNone_iff_eq_none.mp h.1
    have hfiles : entry.coverage.files = [] := List.isEmpty_iff.mp h.2
    rw [hmessage, hfiles]
    exact makesUp_emptyTag "test" entry.attributes
  case isFalse =>
    have hmessage (message : String) :
        MakesUp (textElement "message" [] message) [messageNode message] :=
      (makesUp_text message).element "message" []
    exact ((makesUp_flatMap hmessage _).append (makesUp_flatMap makesUp_fileMarkup _)).element
      "test" entry.attributes

/-! ## Reading back -/

theorem Outcome.read?_render (outcome : Outcome) : read? outcome.render = some outcome := by
  cases outcome <;> decide

theorem readFile?_fileNode {file : String × LineSet} (h : file.2.toList ≠ []) :
    readFile? (fileNode file) = some file := by
  rw [fileNode, readFile?, LineSet.read?_render h]
  rfl

theorem SourceLines.Lined.toList_ne_nil {coverage : SourceLines} (h : coverage.Lined)
    {file : String × LineSet} (hfile : file ∈ coverage.files) : file.2.toList ≠ [] := by
  have hfound := (OrderedMap.mem_entries_iff coverage.byPath file.1 file.2).mp hfile
  obtain ⟨line, hline⟩ := h file.1 file.2 hfound
  exact List.ne_nil_of_mem ((LineSet.mem_toList_iff file.2 line).mpr hline)

theorem readContent?_nodes (message : Option String) {files : List (String × LineSet)}
    (h : ∀ file ∈ files, file.2.toList ≠ []) :
    readContent? (message.toList.map messageNode ++ files.map fileNode) =
      some (message, files) := by
  have hfiles : (files.map fileNode).mapM readFile? = some files := by
    rw [mapM_map_eq_some fun file hfile => readFile?_fileNode (h file hfile), List.map_id']
  cases message with
  | some message =>
    rw [Option.toList_some, List.map_singleton, List.singleton_append, messageNode, readContent?,
      hfiles]
    rfl
  | none =>
    rw [Option.toList_none, List.map_nil, List.nil_append]
    cases files with
    | nil => rfl
    | cons file rest =>
      rw [List.map_cons, fileNode] at hfiles ⊢
      rw [readContent?, hfiles]
      · rfl
      · simp

theorem readTest?_node {entry : TestCoverageEntry} (h : entry.coverage.Lined) :
    readTest? entry.node = some entry.record := by
  rw [TestCoverageEntry.node, TestCoverageEntry.attributes, readTest?, Outcome.read?_render,
    readContent?_nodes entry.result.message fun file hfile => h.toList_ne_nil hfile]
  rfl

/-- The tests of a report are read back, unless the coverage of one has a file without lines. -/
theorem readReport?_perTestReport {entries : List TestCoverageEntry}
    (h : ∀ entry ∈ entries, entry.coverage.Lined) :
    readReport? (perTestReport entries).toList = some (entries.map TestCoverageEntry.record) := by
  have hunmixed : Unmixed textNames
      (element "report" [] (entries.flatMap TestCoverageEntry.markup)) :=
    unmixed_element (validTag_plain (by decide)) (by decide)
      (unmixed_flatMap fun entry _ => entry.unmixed_markup)
  have hnodes : readNodes (element "report" [] (entries.flatMap TestCoverageEntry.markup)) =
      some [.element "report" [] (entries.map TestCoverageEntry.node)] :=
    ((makesUp_flatMap TestCoverageEntry.makesUp_markup entries).element "report" []).readNodes_eq
  rw [perTestReport_eq_documentText, readReport?, read_documentText hunmixed]
  dsimp only [Option.bind_eq_bind, Option.bind_some]
  rw [hnodes]
  exact mapM_map_eq_some fun entry hentry => readTest?_node (h entry hentry)

namespace PerTestWriter

/-- What the tests of a report say, their times apart, can be read from what is left in a sink that
takes everything. So tests that say something else leave something else. -/
theorem writeAll_read {entries : List TestCoverageEntry}
    (h : ∀ entry ∈ entries, entry.coverage.Lined) :
    (Text.Utf8.decode ((fresh (.fresh none)).writeAll entries).1.sink.written).bind readReport? =
        some (entries.map TestCoverageEntry.record) ∧
      ∀ others : List TestCoverageEntry, (∀ entry ∈ others, entry.coverage.Lined) →
        entries.map TestCoverageEntry.record ≠ others.map TestCoverageEntry.record →
          ((fresh (.fresh none)).writeAll entries).1.sink.written ≠
            ((fresh (.fresh none)).writeAll others).1.sink.written := by
  have hread {tests : List TestCoverageEntry} (h : ∀ entry ∈ tests, entry.coverage.Lined) :
      (Text.Utf8.decode ((fresh (.fresh none)).writeAll tests).1.sink.written).bind readReport? =
        some (tests.map TestCoverageEntry.record) := by
    rw [(writeAll_eq tests).1, Bytes.ofString, Text.Utf8.decode_encode, Option.bind_some]
    exact readReport?_perTestReport h
  refine ⟨hread h, fun others hothers hne heq => hne ?_⟩
  have hboth := hread h
  rw [heq, hread hothers] at hboth
  exact (Option.some.inj hboth).symm

/-- A message that looks like markup is read as a message, and a test with an empty message is
told from one without. -/
theorem writeAll_read_markup_in_message :
    let lines : List Line := [⟨1, by decide⟩, ⟨2, by decide⟩, ⟨4, by decide⟩]
    let coverage := SourceLines.empty.add "a&b.java" lines
    let looks : TestCoverageEntry :=
      ⟨"\"<T>\"", .zero, ⟨.failure, some "</message><file path=\"c\">"⟩, coverage⟩
    let silent : TestCoverageEntry := ⟨"U", .zero, ⟨.passed, none⟩, .empty⟩
    let blank : TestCoverageEntry := ⟨"U", .zero, ⟨.passed, some ""⟩, .empty⟩
    (∀ entry ∈ [looks, silent], entry.coverage.Lined) ∧
      (∀ entry ∈ [looks, blank], entry.coverage.Lined) ∧
      (Text.Utf8.decode ((fresh (.fresh none)).writeAll [looks, silent]).1.sink.written).bind
          readReport? =
        some [⟨"\"<T>\"", .failure, some "</message><file path=\"c\">",
            [("a&b.java", .ofList lines)]⟩,
          ⟨"U", .passed, none, []⟩] ∧
      ((fresh (.fresh none)).writeAll [looks, silent]).1.sink.written ≠
        ((fresh (.fresh none)).writeAll [looks, blank]).1.sink.written := by
  intro lines coverage looks silent blank
  have hcoverage : coverage.Lined := SourceLines.lined_empty.add _ _
  have hsilent : ∀ entry ∈ [looks, silent], entry.coverage.Lined := by
    simp [looks, silent, hcoverage, SourceLines.lined_empty]
  have hblank : ∀ entry ∈ [looks, blank], entry.coverage.Lined := by
    simp [looks, blank, hcoverage, SourceLines.lined_empty]
  obtain ⟨hread, hdiffers⟩ := writeAll_read hsilent
  refine ⟨hsilent, hblank, hread, hdiffers [looks, blank] hblank ?_⟩
  simp [silent, blank, TestCoverageEntry.record]

end PerTestWriter

end TestCoverage

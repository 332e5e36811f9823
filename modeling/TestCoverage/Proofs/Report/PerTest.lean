import Mathlib
import TestCoverage.Report.PerTest

/-!
# Writing a per-test report piece by piece

Writing texts one after the other until the sink refuses leaves what writing them as one text
leaves (`Sink.writeText_append`, `Sink.writeText_append_of_refused`). So a report that is
begun, takes tests and is closed writes `perTestReport` as far as there is room
(`PerTestWriter.writeAll_writes`).
-/

namespace TestCoverage

theorem Bytes.ofString_append (first second : String) :
    ofString (first ++ second) = ofString first ++ ofString second := by
  simp [ofString, Text.Utf8.encode]

namespace Sink

variable {sink next : Sink} {a b : Bytes}

theorem write_eq_true (h : sink.write a = (next, true)) :
    next = ⟨sink.limit, sink.written ++ a⟩ ∧ sink.room a.length = a.length := by
  unfold write at h
  obtain ⟨rfl, hroom⟩ := Prod.mk.inj h
  have hroom := beq_iff_eq.mp hroom
  rw [hroom, List.take_length]
  exact ⟨rfl, rfl⟩

/-- What was written in two parts was written at once. -/
theorem write_append (h : sink.write a = (next, true)) : sink.write (a ++ b) = next.write b := by
  obtain ⟨rfl, hroom⟩ := write_eq_true h
  have hboth : sink.room (a ++ b).length =
      a.length + (⟨sink.limit, sink.written ++ a⟩ : Sink).room b.length := by
    unfold room at hroom ⊢
    cases hlimit : sink.limit with
    | none => simp
    | some limit =>
      simp only [hlimit, List.length_append] at hroom ⊢
      omega
  unfold write
  dsimp only
  rw [hboth, List.take_length_add_append, List.append_assoc, List.length_append]
  simp

/-- After a refusal there is room for nothing. -/
theorem write_append_of_refused (h : sink.write a = (next, false)) :
    sink.write (a ++ b) = (next, false) := by
  unfold write at h ⊢
  obtain ⟨rfl, hroom⟩ := Prod.mk.inj h
  have hroom := beq_eq_false_iff_ne.mp hroom
  unfold room at hroom ⊢
  cases hlimit : sink.limit with
  | none => simp [hlimit] at hroom
  | some limit =>
    simp only [hlimit, List.length_append] at hroom ⊢
    have hlt : limit - sink.written.length < a.length := by omega
    have hmin : min a.length (limit - sink.written.length) = limit - sink.written.length :=
      Nat.min_eq_right (Nat.le_of_lt hlt)
    have hmin' : min (a.length + b.length) (limit - sink.written.length) =
        limit - sink.written.length := Nat.min_eq_right (by omega)
    have hne : (limit - sink.written.length == a.length + b.length) = false := by
      simp
      omega
    rw [hmin, hmin', hne, List.take_append_of_le_length (Nat.le_of_lt hlt)]

theorem write_nil (sink : Sink) : sink.write [] = (sink, true) := by
  have hroom : sink.room 0 = 0 := by
    unfold room
    cases sink.limit <;> simp
  simp [write, hroom]

variable {first second : String}

theorem writeText_append (h : sink.writeText first = (next, true)) :
    sink.writeText (first ++ second) = next.writeText second := by
  unfold writeText at h ⊢
  rw [Bytes.ofString_append, write_append h]

theorem writeText_append_of_refused (h : sink.writeText first = (next, false)) :
    sink.writeText (first ++ second) = (next, false) := by
  unfold writeText at h ⊢
  rw [Bytes.ofString_append, write_append_of_refused h]

theorem writeText_empty (sink : Sink) : sink.writeText "" = (sink, true) := write_nil sink

theorem writeMarkup_eq {text : String} {accepted : Bool}
    (h : sink.writeText text = (next, accepted)) :
    sink.writeMarkup text = (next, if accepted then .ok () else .error .markup) := by
  unfold writeMarkup
  rw [h]
  cases accepted <;> rfl

theorem writeEnding_eq {accepted : Bool} (h : sink.writeText "\n" = (next, accepted)) :
    sink.writeEnding = (next, if accepted then .ok () else .error .ending) := by
  unfold writeEnding
  rw [h]
  cases accepted <;> rfl

/-- A document goes to the sink as its text. -/
theorem writeDocument_fst (sink : Sink) (markup : List Xml.Markup) :
    (sink.writeDocument markup).1 = (sink.writeText (Xml.documentText markup)).1 := by
  unfold writeDocument Xml.documentText
  cases hmarkup : sink.writeText (Xml.document markup) with
  | mk middle fits =>
    rw [writeMarkup_eq hmarkup]
    cases fits with
    | false =>
      rw [writeText_append_of_refused hmarkup]
      rfl
    | true =>
      rw [writeText_append hmarkup, if_pos rfl]
      cases hending : middle.writeText "\n" with
      | mk after accepted => exact congrArg Prod.fst (writeEnding_eq hending)

end Sink

namespace PerTestWriter

variable {writer : PerTestWriter} {next : Sink} {accepted : Bool}

theorem begin_eq (hstate : writer.state = .created)
    (h : writer.sink.writeText opening = (next, accepted)) :
    writer.begin =
      if accepted then ({ writer with sink := next, state := .opened }, .ok ())
      else ({ writer with sink := next }, .error (.write .markup)) := by
  unfold begin
  rw [hstate]
  dsimp only
  rw [Sink.writeMarkup_eq h]
  cases accepted <;> rfl

theorem writeTest_eq {entry : TestCoverageEntry} (hstate : writer.state = .opened)
    (h : writer.sink.writeText (Xml.render 1 entry.markup) = (next, accepted)) :
    writer.writeTest entry =
      if accepted then ({ writer with sink := next, tests := writer.tests + 1 }, .ok ())
      else ({ writer with sink := next }, .error (.write .markup)) := by
  unfold writeTest
  rw [hstate]
  dsimp only
  rw [Sink.writeMarkup_eq h]
  cases accepted <;> rfl

theorem close_eq (hstate : writer.state = .opened)
    (h : writer.sink.writeText (closing ++ "\n") = (next, accepted)) :
    writer.close.1.sink = next ∧ writer.close.1.tests = writer.tests ∧
      if accepted then writer.close.2 = .ok ()
      else ∃ failure, writer.close.2 = .error (.write failure) := by
  unfold close
  rw [hstate]
  dsimp only
  cases hclosing : writer.sink.writeText closing with
  | mk middle fits =>
    rw [Sink.writeMarkup_eq hclosing]
    cases fits with
    | false =>
      rw [Sink.writeText_append_of_refused hclosing] at h
      obtain ⟨rfl, rfl⟩ := Prod.mk.inj h
      exact ⟨rfl, rfl, .markup, rfl⟩
    | true =>
      rw [Sink.writeText_append hclosing] at h
      rw [if_pos rfl]
      dsimp only
      rw [Sink.writeEnding_eq h]
      cases accepted with
      | true => exact ⟨rfl, rfl, rfl⟩
      | false => exact ⟨rfl, rfl, .ending, rfl⟩

/-! ## Whole reports -/

/-- Writes tests until one is refused. -/
def writeTests : PerTestWriter → List TestCoverageEntry → PerTestWriter × Except ReportFault Unit
  | writer, [] => (writer, .ok ())
  | writer, entry :: rest =>
    match writer.writeTest entry with
    | (writer, .ok ()) => writeTests writer rest
    | (writer, .error fault) => (writer, .error fault)

/-- Begins a report, writes the tests and closes the report, as far as nothing is refused. -/
def writeAll (writer : PerTestWriter) (entries : List TestCoverageEntry) :
    PerTestWriter × Except ReportFault Unit :=
  match writer.begin with
  | (writer, .error fault) => (writer, .error fault)
  | (writer, .ok ()) =>
    match writer.writeTests entries with
    | (writer, .error fault) => (writer, .error fault)
    | (writer, .ok ()) => writer.close

/-- The text of some tests in a report. -/
def testsText (entries : List TestCoverageEntry) : String :=
  String.join (entries.map fun entry => Xml.render 1 entry.markup)

theorem writeTests_writes {entries : List TestCoverageEntry} (hstate : writer.state = .opened)
    (h : writer.sink.writeText (testsText entries) = (next, accepted)) :
    (writer.writeTests entries).1.sink = next ∧
      if accepted then
        (writer.writeTests entries).2 = .ok () ∧ (writer.writeTests entries).1.state = .opened ∧
          (writer.writeTests entries).1.tests = writer.tests + entries.length
      else ∃ fault, (writer.writeTests entries).2 = .error fault := by
  induction entries generalizing writer with
  | nil =>
    have hnone : testsText [] = "" := rfl
    rw [hnone, Sink.writeText_empty] at h
    obtain ⟨rfl, rfl⟩ := Prod.mk.inj h
    exact ⟨rfl, rfl, hstate, rfl⟩
  | cons entry rest ih =>
    have htext : testsText (entry :: rest) = Xml.render 1 entry.markup ++ testsText rest := by
      rw [testsText, List.map_cons, String.join_cons]
      rfl
    rw [htext] at h
    rw [writeTests]
    cases hentry : writer.sink.writeText (Xml.render 1 entry.markup) with
    | mk middle fits =>
      rw [writeTest_eq hstate hentry]
      cases fits with
      | false =>
        rw [Sink.writeText_append_of_refused hentry] at h
        obtain ⟨rfl, rfl⟩ := Prod.mk.inj h
        exact ⟨rfl, _, rfl⟩
      | true =>
        rw [Sink.writeText_append hentry] at h
        have hrest := @ih ⟨middle, writer.state, writer.tests + 1⟩ hstate h
        rw [List.length_cons, Nat.add_comm rest.length 1, ← Nat.add_assoc]
        exact hrest

/-- Of the text of a report the sink gets what there is room for, and the report succeeds if
that is all of it. -/
theorem writeAll_writes {entries : List TestCoverageEntry} (hstate : writer.state = .created)
    (h : writer.sink.writeText (perTestReport entries) = (next, accepted)) :
    (writer.writeAll entries).1.sink = next ∧
      if accepted then
        (writer.writeAll entries).2 = .ok () ∧
          (writer.writeAll entries).1.tests = writer.tests + entries.length
      else ∃ fault, (writer.writeAll entries).2 = .error fault := by
  have htext : perTestReport entries =
      opening ++ (testsText entries ++ (closing ++ "\n")) := by
    simp only [perTestReport, testsText, String.append_assoc]
  rw [htext] at h
  unfold writeAll
  cases hopening : writer.sink.writeText opening with
  | mk opened fits =>
    rw [begin_eq hstate hopening]
    cases fits with
    | false =>
      rw [Sink.writeText_append_of_refused hopening] at h
      obtain ⟨rfl, rfl⟩ := Prod.mk.inj h
      exact ⟨rfl, _, rfl⟩
    | true =>
      rw [Sink.writeText_append hopening] at h
      rw [if_pos rfl]
      dsimp only
      cases hwritten : opened.writeText (testsText entries) with
      | mk written fits =>
        have hrun := @writeTests_writes ⟨opened, .opened, writer.tests⟩ written fits entries rfl
          hwritten
        generalize writeTests _ entries = answer at hrun ⊢
        obtain ⟨after, outcome⟩ := answer
        obtain ⟨rfl, houtcome⟩ := hrun
        cases fits with
        | false =>
          obtain ⟨fault, rfl⟩ := houtcome
          rw [Sink.writeText_append_of_refused hwritten] at h
          obtain ⟨rfl, rfl⟩ := Prod.mk.inj h
          exact ⟨rfl, fault, rfl⟩
        | true =>
          obtain ⟨rfl, hopen, hcount⟩ := houtcome
          rw [Sink.writeText_append hwritten] at h
          obtain ⟨hsink, htests, hclosed⟩ := close_eq hopen h
          refine ⟨hsink, ?_⟩
          cases accepted with
          | true => exact ⟨hclosed, htests.trans hcount⟩
          | false =>
            obtain ⟨failure, hfailure⟩ := hclosed
            exact ⟨_, hfailure⟩

theorem writeText_unlimited (written : Bytes) (text : String) :
    (⟨none, written⟩ : Sink).writeText text =
      (⟨none, written ++ Bytes.ofString text⟩, true) := by
  simp [Sink.writeText, Sink.write, Sink.room]

/-- In a sink that takes everything, a report that is begun, takes its tests and is closed
leaves its text. -/
theorem writeAll_eq (entries : List TestCoverageEntry) :
    ((fresh (.fresh none)).writeAll entries).1.sink.written =
        Bytes.ofString (perTestReport entries) ∧
      ((fresh (.fresh none)).writeAll entries).1.tests = entries.length ∧
        ((fresh (.fresh none)).writeAll entries).2 = .ok () := by
  have hall := @writeAll_writes (fresh (.fresh none)) _ _ entries rfl (writeText_unlimited [] _)
  rw [if_pos rfl] at hall
  obtain ⟨hsink, hok, htests⟩ := hall
  rw [hsink, htests]
  refine ⟨?_, Nat.zero_add _, hok⟩
  rw [List.nil_append]

end PerTestWriter

end TestCoverage

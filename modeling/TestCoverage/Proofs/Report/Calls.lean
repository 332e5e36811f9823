import Mathlib
import TestCoverage.Proofs.Report.PerTest

/-!
# Calls on a report with limited room

A report takes calls in any order, and its sink may refuse at any byte. The run with limited
room is compared with the run of the same calls with room for everything (`Tracks`). The two
may be in different states once a byte was refused, but then the sink is full and every call
that is in order is refused as well. So the sink holds a first part of what the other one
holds, and what the other one holds beyond it says how a call answers (`run_limited`).
-/

namespace TestCoverage

theorem Text.Utf8.length_encodeChar_pos (c : Char) : 0 < (encodeChar c).length := by
  unfold encodeChar
  dsimp only
  split_ifs <;> exact Nat.succ_pos _

theorem Bytes.length_ofString_pos {text : String} (h : text ≠ "") :
    0 < (ofString text).length := by
  cases hchars : text.toList with
  | nil => exact absurd (String.toList_eq_nil_iff.mp hchars) h
  | cons c rest =>
    have hc := Text.Utf8.length_encodeChar_pos c
    simp only [ofString, Text.Utf8.encode, hchars, List.flatMap_cons, List.length_append]
    omega

/-- A sink with limited room holds as much as there is room for. -/
theorem Sink.writeText_limited {limit : Nat} {written : Bytes} (h : written.length ≤ limit)
    (text : String) :
    (⟨some limit, written⟩ : Sink).writeText text =
      (⟨some limit, (written ++ Bytes.ofString text).take limit⟩,
        decide ((written ++ Bytes.ofString text).length ≤ limit)) := by
  unfold writeText write room
  dsimp only
  refine Prod.ext ?_ ?_
  · rw [List.take_append, List.take_of_length_le h, min_comm]
    rw [← List.take_take, List.take_length]
  · rw [List.length_append, Bool.beq_eq_decide_eq, decide_eq_decide]
    omega

/-- A call on a report that is being written. -/
inductive ReportCall where
  | begin
  | test (entry : TestCoverageEntry)
  | close

namespace ReportCall

/-- What a refusal calls the call. -/
def action : ReportCall → String
  | .begin => "begin"
  | .test _ => "write to"
  | .close => "close"

/-- The state in which the call is in order. -/
def due : ReportCall → ReportState
  | .begin => .created
  | .test _ | .close => .opened

/-- The state that the call leaves when everything was written. -/
def reached : ReportCall → ReportState
  | .begin | .test _ => .opened
  | .close => .closed

/-- What the call writes. -/
def text : ReportCall → String
  | .begin => PerTestWriter.opening
  | .test entry => Xml.render 1 entry.markup
  | .close => PerTestWriter.closing ++ "\n"

def isTest : ReportCall → Bool
  | .test _ => true
  | .begin | .close => false

def isClose : ReportCall → Bool
  | .close => true
  | .begin | .test _ => false

/-- How the call fails when some bytes are missing. -/
def failure (call : ReportCall) (missing : Bytes) : WriteFailure :=
  if call.isClose ∧ missing = Bytes.ofString "\n" then .ending else .markup

/-- What the call answers when it is in order. -/
def answer (call : ReportCall) (missing : Bytes) : Except ReportFault Unit :=
  if missing = [] then .ok () else .error (.write (call.failure missing))

/-- The state that the call leaves when it is in order. -/
def leaves (call : ReportCall) (missing : Bytes) : ReportState :=
  if missing = [] then call.reached
  else if call.failure missing = .ending then .closed
  else call.due

/-- Whether the call put a test into the report. -/
def isTaken (call : ReportCall) (answer : Except ReportFault Unit) : Bool :=
  call.isTest && answer.isOk

theorem render_test_ne (entry : TestCoverageEntry) : Xml.render 1 entry.markup ≠ "" := by
  intro h
  have h := congrArg String.toList h
  unfold Xml.render TestCoverageEntry.markup at h
  rw [String.toList_ofList] at h
  split_ifs at h
  · exact List.cons_ne_nil _ _ h
  · exact List.cons_ne_nil _ _ h

theorem length_text_pos (call : ReportCall) : 0 < (Bytes.ofString call.text).length := by
  refine Bytes.length_ofString_pos ?_
  cases call with
  | begin => decide
  | test entry => exact render_test_ne entry
  | close => decide

theorem failure_of_length {call : ReportCall} {missing : Bytes}
    (h : call.isClose → missing.length ≠ 1) : call.failure missing = .markup := by
  refine if_neg ?_
  rintro ⟨hclose, rfl⟩
  exact h hclose rfl

theorem ofString_text_close :
    Bytes.ofString (text .close) = Bytes.ofString PerTestWriter.closing ++ Bytes.ofString "\n" :=
  Bytes.ofString_append PerTestWriter.closing "\n"

theorem length_text_close : 1 < (Bytes.ofString (text .close)).length := by decide

/-- Of a closed report nothing but the line feed is missing when everything before it fits. -/
theorem failure_close (written : Bytes) (limit : Nat) :
    failure .close ((written ++ Bytes.ofString (text .close)).drop limit) =
      if limit = (written ++ Bytes.ofString PerTestWriter.closing).length then .ending
      else .markup := by
  have hending : (Bytes.ofString "\n").length = 1 := rfl
  rw [ofString_text_close, ← List.append_assoc]
  split_ifs with hlimit
  · rw [hlimit, List.drop_left]
    rfl
  · refine failure_of_length fun _ hlength => hlimit ?_
    rw [List.length_drop, List.length_append, hending] at hlength
    omega

end ReportCall

namespace PerTestWriter

def perform (writer : PerTestWriter) : ReportCall → PerTestWriter × Except ReportFault Unit
  | .begin => writer.begin
  | .test entry => writer.writeTest entry
  | .close => writer.close

/-- Makes one call after the other, whatever they answer. -/
def run (writer : PerTestWriter) (calls : List ReportCall) : PerTestWriter :=
  calls.foldl (fun writer call => (writer.perform call).1) writer

/-- The number of calls of a run that put a test into the report. -/
def taken (writer : PerTestWriter) : List ReportCall → Nat
  | [] => 0
  | call :: rest =>
    (call.isTaken (writer.perform call).2).toNat + (writer.perform call).1.taken rest

variable {writer : PerTestWriter} {call : ReportCall}

/-! ## One call -/

theorem perform_of_ne (h : writer.state ≠ call.due) :
    writer.perform call = (writer, .error (.state call.action writer.state)) := by
  obtain ⟨sink, state, tests⟩ := writer
  cases call <;> cases state <;> first | rfl | exact absurd rfl h

theorem perform_of_fits {next : Sink} (hdue : writer.state = call.due)
    (h : writer.sink.writeText call.text = (next, true)) :
    writer.perform call =
      (⟨next, call.reached, writer.tests + call.isTest.toNat⟩, .ok ()) := by
  cases call with
  | begin => exact begin_eq hdue h
  | test entry =>
    refine (writeTest_eq hdue h).trans ?_
    rw [if_pos rfl, hdue]
    rfl
  | close =>
    change writer.close = _
    unfold close
    rw [hdue]
    dsimp only [ReportCall.due]
    cases hclosing : writer.sink.writeText closing with
    | mk middle fits =>
      rw [Sink.writeMarkup_eq hclosing]
      cases fits with
      | false =>
        have hcut := h.symm.trans (Sink.writeText_append_of_refused hclosing)
        exact absurd (congrArg Prod.snd hcut).symm Bool.false_ne_true
      | true =>
        have hending := (Sink.writeText_append hclosing).symm.trans h
        rw [if_pos rfl]
        dsimp only
        rw [Sink.writeEnding_eq hending]
        rfl

/-- A report that is closed in too little room is closed all the same when nothing but the
line feed is missing. -/
theorem close_of_cut {limit : Nat} {written : Bytes} (hopened : writer.state = .opened)
    (hsink : writer.sink = ⟨some limit, written⟩) (h : written.length ≤ limit)
    (hcut : limit < (written ++ Bytes.ofString (ReportCall.text .close)).length) :
    let all := written ++ Bytes.ofString (ReportCall.text .close)
    let failure := ReportCall.failure .close (all.drop limit)
    writer.close =
      (⟨⟨some limit, all.take limit⟩, if failure = .ending then .closed else .opened,
        writer.tests⟩, .error (.write failure)) := by
  have hwrite := Sink.writeText_limited h (ReportCall.text .close)
  rw [decide_eq_false (Nat.not_le.mpr hcut), ← hsink] at hwrite
  have hclosing := Sink.writeText_limited h closing
  rw [← hsink] at hclosing
  rw [ReportCall.ofString_text_close, ← List.append_assoc, List.length_append] at hcut
  have hending : (Bytes.ofString "\n").length = 1 := rfl
  unfold close
  rw [hopened]
  dsimp only
  rw [ReportCall.failure_close]
  by_cases hfits : (written ++ Bytes.ofString closing).length ≤ limit
  · rw [if_pos (show limit = _ by omega), if_pos rfl]
    rw [decide_eq_true hfits] at hclosing
    have hrest := (Sink.writeText_append hclosing).symm.trans hwrite
    rw [Sink.writeMarkup_eq hclosing, if_pos rfl]
    dsimp only
    rw [Sink.writeEnding_eq hrest]
    rfl
  · rw [if_neg (show limit ≠ _ by omega)]
    rw [decide_eq_false hfits] at hclosing
    have hnext := (Sink.writeText_append_of_refused hclosing).symm.trans hwrite
    rw [Sink.writeMarkup_eq (hclosing.trans hnext)]
    rfl

/-- What a call that is in order does in limited room. The state and the answer are told by
the bytes there is no room for. -/
theorem perform_limited {limit : Nat} {written : Bytes} (hdue : writer.state = call.due)
    (hsink : writer.sink = ⟨some limit, written⟩) (h : written.length ≤ limit) :
    let all := written ++ Bytes.ofString call.text
    let answer := call.answer (all.drop limit)
    writer.perform call =
      (⟨⟨some limit, all.take limit⟩, call.leaves (all.drop limit),
        writer.tests + (call.isTaken answer).toNat⟩, answer) := by
  have hwrite := Sink.writeText_limited h call.text
  rw [← hsink] at hwrite
  dsimp only
  unfold ReportCall.answer ReportCall.leaves
  rcases Nat.lt_or_ge limit (written ++ Bytes.ofString call.text).length with hcut | hfits
  · rw [decide_eq_false (Nat.not_le.mpr hcut)] at hwrite
    have hmissing : (written ++ Bytes.ofString call.text).drop limit ≠ [] :=
      fun hnil => Nat.not_lt.mpr (List.drop_eq_nil_iff.mp hnil) hcut
    rw [if_neg hmissing, if_neg hmissing]
    cases call with
    | begin =>
      refine (begin_eq hdue hwrite).trans ?_
      rw [hdue]
      rfl
    | test entry =>
      refine (writeTest_eq hdue hwrite).trans ?_
      rw [hdue]
      rfl
    | close => exact close_of_cut hdue hsink h hcut
  · rw [List.drop_eq_nil_of_le hfits, if_pos rfl, if_pos rfl, List.take_of_length_le hfits]
    rw [decide_eq_true hfits, List.take_of_length_le hfits] at hwrite
    rw [perform_of_fits hdue hwrite, ReportCall.isTaken]
    cases call <;> rfl

/-! ## Runs with limited room -/

/-- How a report with limited room stands to the report with room for everything that took
the same calls. -/
structure Tracks (limit : Nat) (limited unlimited : PerTestWriter) : Prop where
  /-- The sink holds what there is room for. -/
  limited_sink : limited.sink = ⟨some limit, unlimited.sink.written.take limit⟩
  unlimited_sink : unlimited.sink.limit = none
  /-- Nothing was refused. -/
  room : unlimited.sink.written.length ≤ limit → limited.state = unlimited.state
  /-- Something was refused, and more than the line feed if the report can still be closed
  here but not there. -/
  full : limit < unlimited.sink.written.length → limited.state = .opened →
    unlimited.state = .opened ∨ limit + 1 < unlimited.sink.written.length

theorem tracks_fresh (limit : Nat) :
    Tracks limit (fresh (.fresh (some limit))) (fresh (.fresh none)) where
  limited_sink := by rw [fresh, fresh, Sink.fresh, Sink.fresh, List.take_nil]
  unlimited_sink := rfl
  room _ := rfl
  full h := absurd h (Nat.not_lt_zero limit)

theorem perform_unlimited (hsink : writer.sink.limit = none) (hdue : writer.state = call.due) :
    writer.perform call =
      (⟨⟨none, writer.sink.written ++ Bytes.ofString call.text⟩, call.reached,
        writer.tests + call.isTest.toNat⟩, .ok ()) := by
  refine perform_of_fits hdue ?_
  rw [← writeText_unlimited, ← hsink]

/-- In a sink with room for everything a call only adds. -/
theorem le_perform_unlimited (call : ReportCall) (hsink : writer.sink.limit = none) :
    (writer.perform call).1.sink.limit = none ∧
      writer.sink.written <+: (writer.perform call).1.sink.written := by
  by_cases hdue : writer.state = call.due
  · rw [perform_unlimited hsink hdue]
    exact ⟨rfl, List.prefix_append _ _⟩
  · rw [perform_of_ne hdue]
    exact ⟨hsink, List.prefix_rfl⟩

variable {limit : Nat} {limited unlimited : PerTestWriter}

namespace Tracks

/-- In a full sink a report that is closed lacks more than the line feed. -/
theorem lacks_of_full (h : Tracks limit limited unlimited)
    (hfull : limit < unlimited.sink.written.length) (hdue : limited.state = call.due)
    (hclose : call.isClose) : limit + 1 < (unlimited.perform call).1.sink.written.length := by
  cases call with
  | begin | test _ => exact absurd hclose Bool.false_ne_true
  | close =>
    rcases h.full hfull hdue with hopened | hlacks
    · have hopened : unlimited.state = ReportCall.due .close := hopened
      rw [perform_unlimited h.unlimited_sink hopened, List.length_append]
      have := ReportCall.length_text_close
      omega
    · exact hlacks.trans_le (le_perform_unlimited .close h.unlimited_sink).2.length_le

/-- In a full sink a call that is in order writes nothing and fails in the markup. -/
theorem perform_of_full (h : Tracks limit limited unlimited)
    (hfull : limit < unlimited.sink.written.length) (hdue : limited.state = call.due) :
    limited.perform call = (limited, .error (.write .markup)) := by
  have hlength : (unlimited.sink.written.take limit).length = limit :=
    List.length_take_of_le hfull.le
  have hperform := perform_limited hdue h.limited_sink hlength.le
  dsimp only at hperform
  rw [List.take_left' hlength, List.drop_left' hlength] at hperform
  have hmissing := List.ne_nil_of_length_pos call.length_text_pos
  have hfailure : call.failure (Bytes.ofString call.text) = .markup := by
    refine ReportCall.failure_of_length fun hclose => ?_
    cases call with
    | begin | test _ => exact absurd hclose Bool.false_ne_true
    | close => exact ReportCall.length_text_close.ne'
  rw [hperform, ReportCall.answer, ReportCall.leaves, if_neg hmissing, if_neg hmissing, hfailure]
  rw [← h.limited_sink, ← hdue]
  cases call <;> rfl

/-- What a call that is in order answers, told by the bytes there is no room for. -/
theorem answer_of_due (h : Tracks limit limited unlimited) (hdue : limited.state = call.due) :
    (limited.perform call).2 =
      call.answer ((unlimited.perform call).1.sink.written.drop limit) := by
  rcases Nat.lt_or_ge limit unlimited.sink.written.length with hfull | hroom
  · have hlonger := hfull.trans_le (le_perform_unlimited call h.unlimited_sink).2.length_le
    have hmissing : (unlimited.perform call).1.sink.written.drop limit ≠ [] :=
      fun hnil => Nat.not_lt.mpr (List.drop_eq_nil_iff.mp hnil) hlonger
    have hfailure :
        call.failure ((unlimited.perform call).1.sink.written.drop limit) = .markup := by
      refine ReportCall.failure_of_length fun hclose hlength => ?_
      have hlacks := h.lacks_of_full hfull hdue hclose
      rw [List.length_drop] at hlength
      omega
    rw [h.perform_of_full hfull hdue, ReportCall.answer, if_neg hmissing, hfailure]
  · have hsink := h.limited_sink
    rw [List.take_of_length_le hroom] at hsink
    rw [perform_limited hdue hsink hroom]
    rw [perform_unlimited h.unlimited_sink ((h.room hroom).symm.trans hdue)]

/-- In a full sink nothing happens to the report, in order or not. -/
theorem stays_of_full (h : Tracks limit limited unlimited)
    (hfull : limit < unlimited.sink.written.length) (call : ReportCall) :
    (limited.perform call).1 = limited := by
  by_cases hdue : limited.state = call.due
  · rw [h.perform_of_full hfull hdue]
  · rw [perform_of_ne hdue]

theorem full_perform (h : Tracks limit limited unlimited)
    (hfull : limit < unlimited.sink.written.length) (hopened : limited.state = .opened) :
    (unlimited.perform call).1.state = .opened ∨
      limit + 1 < (unlimited.perform call).1.sink.written.length := by
  rcases h.full hfull hopened with hboth | hlacks
  · cases call with
    | begin =>
      have hne : unlimited.state ≠ ReportCall.due .begin := by
        rw [hboth]
        decide
      rw [perform_of_ne hne]
      exact .inl hboth
    | test entry =>
      have hdue : unlimited.state = ReportCall.due (.test entry) := hboth
      rw [perform_unlimited h.unlimited_sink hdue]
      exact .inl rfl
    | close => exact .inr (h.lacks_of_full hfull hopened rfl)
  · exact .inr (hlacks.trans_le (le_perform_unlimited call h.unlimited_sink).2.length_le)

/-- A report that is still open after a call that did not fit lacks more than the line feed,
if the call closes it. -/
theorem opened_of_cut {written : Bytes}
    (hcut : limit < (written ++ Bytes.ofString call.text).length)
    (hopened : call.leaves ((written ++ Bytes.ofString call.text).drop limit) = .opened) :
    call.reached = .opened ∨ limit + 1 < (written ++ Bytes.ofString call.text).length := by
  cases call with
  | begin | test _ => exact .inl rfl
  | close =>
    have hmissing : (written ++ Bytes.ofString (ReportCall.text .close)).drop limit ≠ [] :=
      fun hnil => Nat.not_lt.mpr (List.drop_eq_nil_iff.mp hnil) hcut
    rw [ReportCall.leaves, if_neg hmissing, ReportCall.failure_close] at hopened
    have hne : limit ≠ (written ++ Bytes.ofString closing).length := by
      intro heq
      rw [if_pos heq, if_pos rfl] at hopened
      exact ReportState.noConfusion hopened
    have hending : (Bytes.ofString "\n").length = 1 := rfl
    rw [ReportCall.ofString_text_close, ← List.append_assoc, List.length_append] at hcut ⊢
    omega

/-- A call keeps the two reports in step. -/
theorem perform (h : Tracks limit limited unlimited) (call : ReportCall) :
    Tracks limit (limited.perform call).1 (unlimited.perform call).1 := by
  rcases Nat.lt_or_ge limit unlimited.sink.written.length with hfull | hroom
  · obtain ⟨hnone, hmore⟩ := le_perform_unlimited call h.unlimited_sink
    have hlonger := hfull.trans_le hmore.length_le
    rw [h.stays_of_full hfull]
    refine ⟨?_, hnone, fun hle => absurd hle (Nat.not_le.mpr hlonger),
      fun _ hopened => h.full_perform hfull hopened⟩
    obtain ⟨more, hmore⟩ := hmore
    rw [h.limited_sink, ← hmore, List.take_append_of_le_length hfull.le]
  · have hstate := h.room hroom
    have hsink := h.limited_sink
    rw [List.take_of_length_le hroom] at hsink
    by_cases hdue : limited.state = call.due
    · rw [perform_limited hdue hsink hroom, perform_unlimited h.unlimited_sink (hstate ▸ hdue)]
      refine ⟨rfl, rfl, fun hfits => ?_, opened_of_cut⟩
      exact if_pos (List.drop_eq_nil_of_le hfits)
    · rw [perform_of_ne hdue, perform_of_ne (hstate ▸ hdue)]
      exact h

theorem run (h : Tracks limit limited unlimited) (calls : List ReportCall) :
    Tracks limit (limited.run calls) (unlimited.run calls) := by
  induction calls generalizing limited unlimited with
  | nil => exact h
  | cons call rest ih => exact ih (h.perform call)

end Tracks

/-! ## The number of tests -/

theorem tests_perform (writer : PerTestWriter) (call : ReportCall) :
    (writer.perform call).1.tests =
      writer.tests + (call.isTaken (writer.perform call).2).toNat := by
  by_cases hdue : writer.state = call.due
  · cases call with
    | begin =>
      cases hopening : writer.sink.writeText opening with
      | mk next accepted =>
        change writer.begin.1.tests = _
        rw [begin_eq hdue hopening]
        cases accepted <;> rfl
    | test entry =>
      cases hentry : writer.sink.writeText (Xml.render 1 entry.markup) with
      | mk next accepted =>
        change (writer.writeTest entry).1.tests =
          writer.tests + (ReportCall.isTaken _ (writer.writeTest entry).2).toNat
        rw [writeTest_eq hdue hentry]
        cases accepted <;> rfl
    | close =>
      cases hclosing : writer.sink.writeText (closing ++ "\n") with
      | mk next accepted => exact (close_eq hdue hclosing).2.1
  · rw [perform_of_ne hdue]
    cases call <;> rfl

theorem tests_run (writer : PerTestWriter) (calls : List ReportCall) :
    (writer.run calls).tests = writer.tests + writer.taken calls := by
  induction calls generalizing writer with
  | nil => rfl
  | cons call rest ih =>
    have hrest := ih (writer.perform call).1
    rw [tests_perform, Nat.add_assoc] at hrest
    exact hrest

/-- After any calls on a report with limited room the sink holds the first part of what the
same calls leave where there is room for everything, and the number of tests is that of the
calls that put one in. The next call is refused if it is out of order, with the report as it
was. If it is in order it succeeds when no byte is missing, is told apart as the end when the
report is closed and nothing but the line feed is missing, and fails in the markup
otherwise. -/
theorem run_limited (limit : Nat) (calls : List ReportCall) (call : ReportCall) :
    let limited := (fresh (.fresh (some limit))).run calls
    let unlimited := (fresh (.fresh none)).run calls
    let missing := (unlimited.perform call).1.sink.written.drop limit
    limited.sink.written = unlimited.sink.written.take limit ∧
    limited.tests = (fresh (.fresh (some limit))).taken calls ∧
    if limited.state ≠ call.due then
      limited.perform call = (limited, .error (.state call.action limited.state))
    else (limited.perform call).2 =
      if missing = [] then .ok ()
      else if call.isClose ∧ missing = Bytes.ofString "\n" then .error (.write .ending)
      else .error (.write .markup) := by
  have htracks := (tracks_fresh limit).run calls
  refine ⟨congrArg Sink.written htracks.limited_sink, ?_, ?_⟩
  · rw [tests_run]
    exact Nat.zero_add _
  · by_cases hdue : ((fresh (.fresh (some limit))).run calls).state = call.due
    · rw [if_neg (not_not_intro hdue), htracks.answer_of_due hdue, ReportCall.answer,
        ReportCall.failure]
      split_ifs <;> rfl
    · rw [if_pos hdue]
      exact perform_of_ne hdue

end PerTestWriter

end TestCoverage

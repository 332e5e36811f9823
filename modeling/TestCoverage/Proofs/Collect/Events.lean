import Mathlib
import TestCoverage.Collect.Dispatch
import TestCoverage.Proofs.Probe.Store

/-!
# What collectors have after some events

What a collector holds follows from the events alone.

* A collector of per-test coverage has one execution for every test that finishes
  (`TestEvent.executions`). It is measured if the event before it of the same test was its
  start (`TestEvent.running`). `PerTestCollector.Knows.take` says what one more event adds.
* A collector for the whole suite has every session and every record of every payload that
  can be read (`Collectors.suite_takeAll`).
-/

namespace TestCoverage

namespace TestEvent

def test : TestEvent → TestDetails
  | .started test _ => test
  | .finished test _ _ _ => test

def id (event : TestEvent) : String := event.test.internalId

/-- What was recorded before the event. -/
def payload : TestEvent → Bytes
  | .started _ payload => payload
  | .finished _ _ payload _ => payload

def isStart : TestEvent → Bool
  | .started _ _ => true
  | .finished _ _ _ _ => false

/-- The dumps in the payload, if it can be read. -/
def dumps (event : TestEvent) : List Dump :=
  match Payload.read event.payload with
  | .ok dumps => dumps
  | .error _ => []

def sessions (event : TestEvent) : List Session := event.dumps.map (·.session)

def stores (event : TestEvent) : List ProbeStore := event.dumps.map (·.store)

/-- The last event of the test was its start. -/
def running (events : List TestEvent) (id : String) : Bool :=
  (events.filter (·.id = id)).getLast?.any (·.isStart)

/-- The execution of a test that finishes after some events. -/
def execution? (earlier : List TestEvent) : TestEvent → Option Execution
  | .started _ _ => none
  | .finished test result payload elapsed =>
    let measured := if running earlier test.internalId then some elapsed else none
    some ⟨test.internalId, test.kind, result, measured,
      (PerTestCollector.readDump test.internalId payload).1⟩

/-- The executions of the tests that finish, in order. -/
def executions (events : List TestEvent) : List Execution :=
  (List.range events.length).filterMap fun i => events[i]?.bind (execution? (events.take i))

theorem running_snoc (events : List TestEvent) (event : TestEvent) (id : String) :
    running (events ++ [event]) id = if event.id = id then event.isStart else running events id := by
  unfold running
  rw [List.filter_append, List.filter_cons]
  split <;> simp_all

theorem executions_snoc (events : List TestEvent) (event : TestEvent) :
    executions (events ++ [event]) = executions events ++ (execution? events event).toList := by
  unfold executions
  rw [List.length_append, List.length_singleton, List.range_succ, List.filterMap_append]
  congr 1
  · apply List.filterMap_congr
    intro i hi
    have hi := List.mem_range.mp hi
    rw [List.getElem?_append_left hi, List.take_append_of_le_length (Nat.le_of_lt hi)]
  · rw [List.filterMap_cons, List.getElem?_concat_length, List.take_left' rfl, Option.bind_some]
    cases execution? events event <;> rfl

end TestEvent

/-! ## Reading payloads -/

theorem Dump.store_combine (id : String) (dumps : List Dump) :
    (combine id dumps).1.store = ProbeStore.mergeAll (dumps.map (·.store)) := by
  have hfaults (state : ProbeStore × List MergeFault) :
      (dumps.foldl (fun state dump =>
          ((state.1.merge dump.store).1, state.2 ++ (state.1.merge dump.store).2)) state).1 =
        (dumps.map (·.store)).foldl (fun store other => (store.merge other).1) state.1 := by
    induction dumps generalizing state with
    | nil => rfl
    | cons dump rest ih => exact ih _
  exact hfaults (.empty, [])

namespace TestEvent

theorem map_executions (events : List TestEvent) :
    (executions events).map (fun run => (run.id, run.dump.store)) =
      (events.filter (!·.isStart)).map fun event =>
        (event.id, ProbeStore.mergeAll event.stores) := by
  induction events using List.reverseRecOn with
  | nil => rfl
  | append_singleton events event ih =>
    rw [executions_snoc, List.map_append, ih, List.filter_append, List.map_append]
    congr 1
    cases event with
    | started test payload => rfl
    | finished test result payload elapsed =>
      -- a payload that cannot be read counts as one without dumps
      have hstore : (PerTestCollector.readDump test.internalId payload).1.store =
          ProbeStore.mergeAll (stores (.finished test result payload elapsed)) := by
        unfold PerTestCollector.readDump Payload.decode stores dumps TestEvent.payload
        cases Payload.read payload with
        | error fault => rfl
        | ok dumps => exact Dump.store_combine _ dumps
      exact congrArg (fun store => [(test.internalId, store)]) hstore

end TestEvent

/-! ## Per-test coverage -/

namespace PerTestCollector

/-- The collector knows which tests are running after some events. -/
def Knows (collector : PerTestCollector) (events : List TestEvent) : Prop :=
  ∀ id, collector.started.contains id = TestEvent.running events id

theorem knows_empty : empty.Knows [] := fun _ => rfl

theorem contains_filter_ne (ids : List String) (id other : String) :
    (ids.filter (· ≠ other)).contains id = if other = id then false else ids.contains id := by
  rw [Bool.eq_iff_iff]
  by_cases hid : other = id
  · simp [hid]
  · simp [hid, Ne.symm hid]

/-- One more event adds its execution, if a test finishes. -/
theorem Knows.take {collector : PerTestCollector} {events : List TestEvent}
    (h : collector.Knows events) (event : TestEvent) :
    (collector.take event).1.Knows (events ++ [event]) ∧
      (collector.take event).1.executions =
        collector.executions ++ (TestEvent.execution? events event).toList := by
  cases event with
  | started test payload =>
    refine ⟨fun id => ?_, (List.append_nil _).symm⟩
    change (test.internalId :: collector.started.filter (· ≠ test.internalId)).contains id = _
    rw [List.contains_cons, contains_filter_ne, TestEvent.running_snoc, h id]
    change _ = if test.internalId = id then true else _
    by_cases hid : test.internalId = id
    · simp [hid]
    · simp [hid, Ne.symm hid]
  | finished test result payload elapsed =>
    refine ⟨fun id => ?_, ?_⟩
    · change (collector.started.filter (· ≠ test.internalId)).contains id = _
      rw [contains_filter_ne, TestEvent.running_snoc, h id]
      rfl
    · rw [TestEvent.execution?, ← h test.internalId]
      rfl

end PerTestCollector

/-! ## Coverage of the whole suite -/

namespace SuiteCollector

/-- The collector with more sessions and the records of more stores. -/
def adding (collector : SuiteCollector) (sessions : List Session) (stores : List ProbeStore) :
    SuiteCollector :=
  ⟨collector.sessions ++ sessions,
    stores.foldl (fun store other => (store.merge other).1) collector.store⟩

theorem adding_nil (collector : SuiteCollector) : collector.adding [] [] = collector := by
  rw [adding, List.append_nil]
  rfl

theorem addDumps_eq (collector : SuiteCollector) (dumps : List Dump) :
    (collector.addDumps dumps).1 =
      collector.adding (dumps.map (·.session)) (dumps.map (·.store)) := by
  have hnotices (state : SuiteCollector × List CollectNotice) :
      (dumps.foldl (fun state dump =>
          ((state.1.addDump dump).1, state.2 ++ (state.1.addDump dump).2)) state).1 =
        state.1.adding (dumps.map (·.session)) (dumps.map (·.store)) := by
    induction dumps generalizing state with
    | nil => exact (adding_nil _).symm
    | cons dump rest ih =>
      refine (ih _).trans (congrArg (SuiteCollector.mk · _) ?_)
      exact List.append_assoc ..
  exact hnotices (collector, [])

theorem take_eq (collector : SuiteCollector) (event : TestEvent) :
    (collector.take event).1 = collector.adding event.sessions event.stores := by
  have hpayload (provenance : String) :
      (collector.addPayload event.payload provenance).1 =
        collector.adding event.sessions event.stores := by
    unfold addPayload Payload.decode TestEvent.sessions TestEvent.stores TestEvent.dumps
    split
    · next hempty =>
      rw [List.isEmpty_iff.mp hempty]
      exact (adding_nil collector).symm
    · cases Payload.read event.payload with
      | error fault => exact (adding_nil collector).symm
      | ok dumps => exact addDumps_eq collector dumps
  cases event with
  | started test payload => exact hpayload _
  | finished test result payload elapsed => exact hpayload _

end SuiteCollector

namespace Collectors

variable (collectors : Collectors) (listeners : Listeners) (events : List TestEvent)
  (event : TestEvent)

theorem perTest_take : (collectors.take listeners event).1.perTest =
    if listeners.perTest then (collectors.perTest.take event).1 else collectors.perTest := by
  by_cases hlistens : listeners.perTest = true <;> simp [take, hlistens]

theorem suite_take : (collectors.take listeners event).1.suite =
    if listeners.suite then (collectors.suite.take event).1 else collectors.suite := by
  by_cases hlistens : listeners.suite = true <;> simp [take, hlistens]

theorem takeAll_snoc : (collectors.takeAll listeners (events ++ [event])).1 =
    ((collectors.takeAll listeners events).1.take listeners event).1 := by
  rw [takeAll, List.foldl_append]
  rfl

variable {listeners} (moduleName : Option String)

/-- The collector that listened to all events has the executions of the finished tests. -/
theorem executions_takeAll (hlistens : listeners.perTest = true) :
    ((empty moduleName).takeAll listeners events).1.perTest.Knows events ∧
      ((empty moduleName).takeAll listeners events).1.perTest.executions =
        TestEvent.executions events := by
  induction events using List.reverseRecOn with
  | nil => exact ⟨PerTestCollector.knows_empty, rfl⟩
  | append_singleton events event ih =>
    obtain ⟨hknows, hexecutions⟩ := ih.1.take event
    rw [takeAll_snoc, perTest_take, if_pos hlistens]
    exact ⟨hknows, by rw [hexecutions, ih.2, TestEvent.executions_snoc]⟩

/-- The collector that listened to all events has everything that can be read. -/
theorem suite_takeAll (hlistens : listeners.suite = true) :
    ((empty moduleName).takeAll listeners events).1.suite =
      ⟨events.flatMap TestEvent.sessions, ProbeStore.mergeAll (events.flatMap TestEvent.stores)⟩ := by
  induction events using List.reverseRecOn with
  | nil => rfl
  | append_singleton events event ih =>
    rw [takeAll_snoc, suite_take, if_pos hlistens, SuiteCollector.take_eq, ih,
      List.flatMap_append, List.flatMap_singleton, List.flatMap_append, List.flatMap_singleton,
      ProbeStore.mergeAll, ProbeStore.mergeAll, List.foldl_append]
    rfl

theorem store_takeAll (hlistens : listeners.suite = true) :
    ((empty moduleName).takeAll listeners events).1.suite.store =
      ProbeStore.mergeAll (events.flatMap TestEvent.stores) :=
  congrArg SuiteCollector.store (suite_takeAll events moduleName hlistens)

end Collectors

end TestCoverage

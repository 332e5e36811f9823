import Mathlib
import TestCoverage.Proofs.Collect.Events
import TestCoverage.Proofs.Probe.Session

/-!
# The report of the whole suite does not depend on the order of arrival

The collector for the whole suite keeps the sessions of all payloads in the order of their
arrival and merges their stores one after the other. A report shows neither order: its session
spans all sessions (`Session.Spans`), and the stores merge to the same in any order as long as
their records agree on names and numbers of probes (`ProbeStore.mergeAll_congr`). So what is
reported is told by the payloads that arrive, as a collection (`SuiteCollector.dump_of_perm`).
-/

namespace TestCoverage

/-! ## Payloads -/

namespace TestEvent

variable {events others : List TestEvent}

/-- What is read of events is told by their payloads, whatever the events are. -/
theorem flatMap_dumps_perm (h : (events.map payload).Perm (others.map payload)) :
    (events.flatMap dumps).Perm (others.flatMap dumps) := by
  have hdumps (event : TestEvent) :
      event.dumps = (Payload.read event.payload).toOption.getD [] := by
    unfold dumps
    cases Payload.read event.payload <;> rfl
  have hread (events : List TestEvent) : events.flatMap dumps =
      (events.map payload).flatMap fun payload => (Payload.read payload).toOption.getD [] := by
    rw [List.flatMap_map, funext hdumps]
  rw [hread, hread]
  exact h.flatMap_right _

/-- What is made of each dump is told by the payloads as well. -/
theorem flatMap_map_dumps_perm {α : Type} (f : Dump → α)
    (h : (events.map payload).Perm (others.map payload)) :
    (events.flatMap fun event => event.dumps.map f).Perm
      (others.flatMap fun event => event.dumps.map f) := by
  rw [← List.map_flatMap, ← List.map_flatMap]
  exact (flatMap_dumps_perm h).map f

end TestEvent

namespace SuiteCollector

/-- Collectors with the same store, and the same sessions in any order, report alike. -/
theorem dump_congr {collector other : SuiteCollector}
    (hsessions : collector.sessions.Perm other.sessions) (hstore : collector.store = other.store)
    (reporter : Reporter) (sink : Sink) :
    (collector.dump reporter sink).outcome = (other.dump reporter sink).outcome ∧
      (collector.dump reporter sink).sink = (other.dump reporter sink).sink := by
  have hempty : collector.isEmpty = other.isEmpty := by
    rw [isEmpty, isEmpty, hstore, hsessions.isEmpty_eq]
  unfold dump
  dsimp only [drain]
  rw [hempty, hstore, Session.spanning_of_perm sessionId hsessions]
  split
  · exact ⟨rfl, rfl⟩
  · split <;> exact ⟨rfl, rfl⟩

/-- The session of a report spans the sessions of the collector. -/
theorem spans_of_dump {collector : SuiteCollector} {reporter : Reporter} {sink : Sink}
    {session : Session} (hempty : collector.sessions = [] → collector.isEmpty = true)
    (h : (collector.dump reporter sink).outcome = .ok (some session)) :
    session.id = sessionId ∧ session.Spans collector.sessions := by
  unfold dump at h
  dsimp only [drain] at h
  split at h
  · cases h
  · next hsome =>
    have hsessions : collector.sessions ≠ [] := fun hnil => hsome (hempty hnil)
    split at h
    · obtain rfl := Option.some.inj (Except.ok.inj h)
      refine ⟨?_, Session.spanning_spans sessionId hsessions⟩
      unfold Session.spanning
      split <;> rfl
    · cases h

variable {events others : List TestEvent} {listeners : Listeners}

/-- Payloads that arrive in another order, or with other events, are reported alike if the
records of each class version agree on the name of the class and on the number of probes. The
session of the report spans all that arrived. -/
theorem dump_of_perm
    (hpayloads : (events.map TestEvent.payload).Perm (others.map TestEvent.payload))
    (hagree : ProbeStore.Coherent (events.flatMap TestEvent.stores))
    (hlistens : listeners.suite = true) (moduleName : Option String) (reporter : Reporter)
    (sink : Sink) :
    let collector := ((Collectors.empty moduleName).takeAll listeners events).1.suite
    let other := ((Collectors.empty moduleName).takeAll listeners others).1.suite
    collector.pending = other.pending ∧
    (collector.dump reporter sink).outcome = (other.dump reporter sink).outcome ∧
    (collector.dump reporter sink).sink = (other.dump reporter sink).sink ∧
    ∀ session, (collector.dump reporter sink).outcome = .ok (some session) →
      session.id = sessionId ∧ session.Spans (events.flatMap TestEvent.sessions) := by
  intro collector other
  have hcollector : collector = ⟨events.flatMap TestEvent.sessions,
      ProbeStore.mergeAll (events.flatMap TestEvent.stores)⟩ :=
    Collectors.suite_takeAll events moduleName hlistens
  have hother : other = ⟨others.flatMap TestEvent.sessions,
      ProbeStore.mergeAll (others.flatMap TestEvent.stores)⟩ :=
    Collectors.suite_takeAll others moduleName hlistens
  have hsessions : collector.sessions.Perm other.sessions := by
    rw [hcollector, hother]
    exact TestEvent.flatMap_map_dumps_perm (·.session) hpayloads
  have hstore : collector.store = other.store := by
    rw [hcollector, hother]
    exact ProbeStore.mergeAll_congr hagree fun store =>
      (TestEvent.flatMap_map_dumps_perm (·.store) hpayloads).mem_iff
  obtain ⟨houtcome, hsink⟩ := dump_congr hsessions hstore reporter sink
  -- every dump has a session, so without sessions there is nothing at all
  have hempty : collector.sessions = [] → collector.isEmpty = true := by
    rw [hcollector]
    intro hnil
    have hstores : events.flatMap TestEvent.stores = [] := by
      refine List.flatMap_eq_nil_iff.mpr fun event hevent => ?_
      have hdumps := List.flatMap_eq_nil_iff.mp hnil event hevent
      exact List.map_eq_nil_iff.mpr (List.map_eq_nil_iff.mp hdumps)
    rw [isEmpty, hnil, hstores]
    rfl
  refine ⟨congrArg ProbeStore.size hstore, houtcome, hsink, fun session hsession => ?_⟩
  obtain ⟨hid, hspans⟩ := spans_of_dump hempty hsession
  rw [hcollector] at hspans
  exact ⟨hid, hspans⟩

/-- Two tests that run probes of the same class are reported alike, whichever comes first. -/
theorem dump_of_perm_two_tests :
    let first : Bytes := [0x01, 0xc0, 0xc0, 0x10, 0x07,
      0x10, 0, 1, 0x73, 0, 0, 0, 0, 0, 0, 0, 5, 0, 0, 0, 0, 0, 0, 0, 9,
      0x11, 0, 0, 0, 0, 0, 0, 0, 1, 0, 1, 0x41, 2, 1]
    let second : Bytes := [0x01, 0xc0, 0xc0, 0x10, 0x07,
      0x10, 0, 1, 0x74, 0, 0, 0, 0, 0, 0, 0, 3, 0, 0, 0, 0, 0, 0, 0, 7,
      0x11, 0, 0, 0, 0, 0, 0, 0, 1, 0, 1, 0x41, 2, 2]
    let events : List TestEvent :=
      [.started (.ofId "A/t") first, .finished (.ofId "A/t") .passed second .zero]
    let others : List TestEvent :=
      [.started (.ofId "A/u") second, .started (.ofId "A/v") first]
    let collector := ((Collectors.empty none).takeAll .all events).1.suite
    let other := ((Collectors.empty none).takeAll .all others).1.suite
    ∀ reporter sink, other.pending = 1 ∧
      (collector.dump reporter sink).sink = (other.dump reporter sink).sink := by
  intro first second events others collector other
  have hpayloads : (events.map TestEvent.payload).Perm (others.map TestEvent.payload) := by
    decide
  have hagree : ProbeStore.Coherent (events.flatMap TestEvent.stores) := by
    decide +kernel
  have hlistens : Listeners.all.suite = true := rfl
  have hpending : collector.pending = 1 := by
    decide +kernel
  intro reporter sink
  obtain ⟨hsame, -, hsink, -⟩ := dump_of_perm hpayloads hagree hlistens none reporter sink
  exact ⟨hsame.symm.trans hpending, hsink⟩

end SuiteCollector

end TestCoverage

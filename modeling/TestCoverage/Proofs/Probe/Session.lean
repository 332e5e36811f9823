import Mathlib
import TestCoverage.Probe.Session

/-!
# Sessions that span others

A session spans some sessions if it begins with the earliest of them and is dumped with the latest
(`Session.Spans`). Several sessions are made into one that spans them (`Session.spanning_spans`),
and there is no other, whatever their order (`Session.Spans.unique`).

Where one session more is spanned, the others alone are spanned if one of them begins as early and
one of them is dumped as late (`Session.Spans.of_cons_iff`).
-/

namespace TestCoverage

instance Int64.lawfulOrderLeftLeaningMax : Std.LawfulOrderLeftLeaningMax Int64 where
  max_eq_left a b h := by
    change (if a ≤ b then b else a) = a
    split
    · next hle => exact Int64.le_antisymm h hle
    · rfl
  max_eq_right a b h := by
    change (if a ≤ b then b else a) = b
    split
    · rfl
    · next hnot => exact absurd (Int64.le_of_lt (Int64.not_le.mp h)) hnot

namespace Session

/-- The session begins with the earliest of the sessions and is dumped with the latest. -/
structure Spans (session : Session) (sessions : List Session) : Prop where
  start_mem : session.start ∈ sessions.map (·.start)
  start_le : ∀ start ∈ sessions.map (·.start), session.start ≤ start
  dump_mem : session.dump ∈ sessions.map (·.dump)
  le_dump : ∀ dump ∈ sessions.map (·.dump), dump ≤ session.dump

theorem spanning_spans (id : String) {sessions : List Session} (h : sessions ≠ []) :
    (spanning id sessions).Spans sessions := by
  cases sessions with
  | nil => exact absurd rfl h
  | cons first others =>
    have hstart : ((first :: others).map (·.start)).min? =
        some (spanning id (first :: others)).start := by
      rw [List.map_cons, List.min?_cons', List.foldl_map]
      rfl
    have hdump : ((first :: others).map (·.dump)).max? =
        some (spanning id (first :: others)).dump := by
      rw [List.map_cons, List.max?_cons', List.foldl_map]
      rfl
    obtain ⟨hstartMem, hstartLe⟩ := List.min?_eq_some_iff.mp hstart
    obtain ⟨hdumpMem, hdumpLe⟩ := List.max?_eq_some_iff.mp hdump
    exact ⟨hstartMem, hstartLe, hdumpMem, hdumpLe⟩

/-- A session that spans the same sessions is the same, up to its name. -/
theorem Spans.unique {first second : Session} {sessions others : List Session}
    (hfirst : first.Spans sessions) (hsecond : second.Spans others)
    (hsame : ∀ session, session ∈ sessions ↔ session ∈ others) :
    first.start = second.start ∧ first.dump = second.dump := by
  have hstart (start : Int64) :
      start ∈ sessions.map (·.start) ↔ start ∈ others.map (·.start) := by
    simp only [List.mem_map, hsame]
  have hdump (dump : Int64) : dump ∈ sessions.map (·.dump) ↔ dump ∈ others.map (·.dump) := by
    simp only [List.mem_map, hsame]
  constructor
  · exact Int64.le_antisymm (hfirst.start_le _ ((hstart _).mpr hsecond.start_mem))
      (hsecond.start_le _ ((hstart _).mp hfirst.start_mem))
  · exact Int64.le_antisymm (hsecond.le_dump _ ((hdump _).mp hfirst.dump_mem))
      (hfirst.le_dump _ ((hdump _).mpr hsecond.dump_mem))

/-- One session more makes no difference if it neither begins before the others nor is dumped after
them. -/
theorem Spans.of_cons_iff {session extra : Session} {sessions : List Session}
    (h : session.Spans (extra :: sessions)) :
    session.Spans sessions ↔
      (∃ other ∈ sessions, other.start ≤ extra.start) ∧
        ∃ other ∈ sessions, extra.dump ≤ other.dump := by
  constructor
  · intro hspans
    obtain ⟨first, hfirst, hstart⟩ := List.mem_map.mp hspans.start_mem
    obtain ⟨last, hlast, hdump⟩ := List.mem_map.mp hspans.dump_mem
    exact ⟨⟨first, hfirst, hstart ▸ h.start_le extra.start List.mem_cons_self⟩,
      ⟨last, hlast, hdump ▸ h.le_dump extra.dump List.mem_cons_self⟩⟩
  · rintro ⟨⟨first, hfirst, hstart⟩, ⟨last, hlast, hdump⟩⟩
    have hfirstMem := List.mem_map_of_mem (f := Session.start) hfirst
    have hlastMem := List.mem_map_of_mem (f := Session.dump) hlast
    refine ⟨?_, fun start hmem => h.start_le start (List.mem_cons_of_mem _ hmem), ?_,
      fun dump hmem => h.le_dump dump (List.mem_cons_of_mem _ hmem)⟩
    · rcases List.mem_cons.mp h.start_mem with heq | hmem
      · have hsame : session.start = first.start :=
          Int64.le_antisymm (h.start_le _ (List.mem_cons_of_mem _ hfirstMem)) (heq ▸ hstart)
        exact hsame ▸ hfirstMem
      · exact hmem
    · rcases List.mem_cons.mp h.dump_mem with heq | hmem
      · have hsame : session.dump = last.dump :=
          Int64.le_antisymm (heq ▸ hdump) (h.le_dump _ (List.mem_cons_of_mem _ hlastMem))
        exact hsame ▸ hlastMem
      · exact hmem

theorem spanning_of_perm (id : String) {sessions others : List Session}
    (h : sessions.Perm others) : spanning id sessions = spanning id others := by
  cases sessions with
  | nil => rw [List.nil_perm.mp h]
  | cons first rest =>
    have hne : first :: rest ≠ [] := List.cons_ne_nil first rest
    have hne' : others ≠ [] := fun hnil => hne (List.perm_nil.mp (hnil ▸ h))
    obtain ⟨hstart, hdump⟩ :=
      (spanning_spans id hne).unique (spanning_spans id hne') fun _ => h.mem_iff
    cases others with
    | nil => exact absurd rfl hne'
    | cons other others => exact congrArg₂ (Session.mk id) hstart hdump

end Session

end TestCoverage

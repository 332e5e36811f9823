import Mathlib
import TestCoverage.Proofs.Dump.Offsets
import TestCoverage.Proofs.Dump.Payload
import TestCoverage.Proofs.Probe.Session

/-!
# The session of a payload

The dumps of a payload are combined into one whose session spans theirs. These are the sessions of
the blocks (`Payload.sessions`), one for each, but records that come before the first of them have a
dump to themselves, whose session has no name and is at time zero (`Payload.Holds.map_session`).

* `Payload.combine_spans`: the combined session spans the sessions of the blocks, and time zero too
  if a record comes first. So it is what the blocks say, unless a record comes first and time zero
  is outside.
* `Payload.combine_record_first`: a payload whose combined session begins at time zero although its
  only session begins later.
-/

namespace TestCoverage

/-- The session that a block has the information of. -/
def Block.session? : Block → Option Session
  | .session info => some info
  | .header | .record _ => none

namespace Payload

/-- The sessions of the blocks, in order. -/
def sessions (blocks : List Block) : List Session := blocks.filterMap Block.session?

/-- A record comes before the first session. -/
def recordFirst : List Block → Bool
  | [] => false
  | .header :: rest => recordFirst rest
  | .session _ :: _ => false
  | .record _ :: _ => true

variable {blocks : List Block}

/-! ## One block more -/

theorem sessions_snoc (blocks : List Block) (block : Block) :
    sessions (blocks ++ [block]) = sessions blocks ++ block.session?.toList := by
  unfold sessions
  rw [List.filterMap_append]
  cases block <;> rfl

/-- A block at the end is the first record only if nothing but headers is before it. -/
theorem recordFirst_snoc (blocks : List Block) (block : Block) :
    recordFirst (blocks ++ [block]) =
      (recordFirst blocks || (sessions blocks).isEmpty && recordFirst [block]) := by
  induction blocks with
  | nil => rfl
  | cons first rest ih =>
    cases first with
    | header => exact ih
    | session info => rfl
    | record data => rfl

/-! ## The sessions of the dumps -/

/-- The sessions of the blocks, after time zero if a record comes first. -/
def spanned (blocks : List Block) : List Session :=
  if recordFirst blocks then .anonymous :: sessions blocks else sessions blocks

theorem spanned_snoc {block : Block} (h : recordFirst (blocks ++ [block]) = recordFirst blocks) :
    spanned (blocks ++ [block]) = spanned blocks ++ block.session?.toList := by
  unfold spanned
  rw [h, sessions_snoc]
  split <;> rfl

/-- The dumps have the sessions of the blocks, and one at time zero for records that come
first. -/
theorem Holds.map_session {dumps : List Dump} (h : Holds blocks dumps) :
    dumps.map (·.session) = spanned blocks := by
  induction h with
  | nil => rfl
  | header _ ih =>
    rw [spanned_snoc (by simp [recordFirst_snoc, recordFirst]), ih]
    exact (List.append_nil _).symm
  | session session _ ih =>
    rw [spanned_snoc (by simp [recordFirst_snoc, recordFirst]), List.map_append, ih]
    rfl
  | @record blocks dumps dump record store _ _ ih =>
    have hsame : recordFirst (blocks ++ [.record record]) = recordFirst blocks := by
      rw [recordFirst_snoc]
      cases hfirst : recordFirst blocks with
      | true => rfl
      | false =>
        -- some dump was begun, and not by a record
        have hsome : sessions blocks ≠ [] := fun hnone => by simp [spanned, hfirst, hnone] at ih
        rw [List.isEmpty_eq_false_iff.mpr hsome]
        rfl
    rw [spanned_snoc hsame, ← ih, List.map_append, List.map_append]
    exact (List.append_nil _).symm
  | @first blocks record store _ _ ih =>
    have hfirst : recordFirst blocks = false := by
      cases hfirst : recordFirst blocks with
      | true => simp [spanned, hfirst] at ih
      | false => rfl
    have hnone : sessions blocks = [] := by simpa [spanned, hfirst] using ih.symm
    rw [spanned, recordFirst_snoc, sessions_snoc, hfirst, hnone]
    rfl

/-! ## Given payloads -/

theorem spells_of_written {bytes : Bytes}
    (hwritten : ∀ block ∈ blocks, block.write.rejection = none)
    (hbytes : (blocks.flatMap fun block => block.write.bytes) = bytes) : Spells bytes blocks :=
  hbytes ▸ spells_flatMap_write fun block hblock =>
    (Block.write_rejection_eq_none_iff block).mp (hwritten block hblock)

/-- A payload of whose dumps something is known is accepted. -/
theorem exists_decode_eq_ok {α : Type} {bytes : Bytes} {provenance : String} {f : List Dump → α}
    {known : α} (h : (decode bytes provenance).toOption.map f = some known) :
    ∃ dumps, decode bytes provenance = .ok dumps ∧ f dumps = known := by
  cases hread : decode bytes provenance with
  | error malformed =>
    rw [hread] at h
    cases h
  | ok dumps =>
    rw [hread] at h
    exact ⟨dumps, rfl, Option.some.inj h⟩

/-! ## The combined session -/

theorem combine_session (id : String) (dumps : List Dump) :
    (Dump.combine id dumps).1.session = Session.spanning id (dumps.map (·.session)) := rfl

/-- The session of a combined payload has the name that is given and spans the sessions of the
blocks, and time zero if a record comes first. So if there are sessions, it spans just these if no
record comes first, or else if time zero is between them. -/
theorem combine_spans {bytes : Bytes} {provenance : String} {dumps : List Dump}
    (hread : decode bytes provenance = .ok dumps) :
    ∃ blocks, Spells bytes blocks ∧ (sessions blocks ≠ [] → ∀ id,
      let session := (Dump.combine id dumps).1.session
      session.id = id ∧
        session.Spans (spanned blocks) ∧
        (session.Spans (sessions blocks) ↔ (recordFirst blocks = true →
          (∃ other ∈ sessions blocks, other.start ≤ 0) ∧
            ∃ other ∈ sessions blocks, 0 ≤ other.dump))) := by
  obtain ⟨blocks, hspells, -, hadd⟩ := read_eq_ok_iff.mp (decode_eq_ok_iff_read.mp hread)
  have hholds := holds_of_foldlM_add hadd
  rw [List.reverse_reverse] at hholds
  refine ⟨blocks, hspells, fun hsessions id => ?_⟩
  have hne : spanned blocks ≠ [] := by
    unfold spanned
    split
    · exact List.cons_ne_nil _ _
    · exact hsessions
  have hspans := Session.spanning_spans id hne
  intro session
  have hsession : session = Session.spanning id (spanned blocks) := by
    rw [← hholds.map_session]
    exact combine_session id dumps
  rw [← hsession] at hspans
  refine ⟨?_, hspans, ?_⟩
  · rw [hsession]
    unfold Session.spanning
    split <;> rfl
  · unfold spanned at hspans
    cases hfirst : recordFirst blocks with
    | true =>
      rw [hfirst, if_pos rfl] at hspans
      exact hspans.of_cons_iff.trans ⟨fun h _ => h, fun h => h rfl⟩
    | false =>
      rw [hfirst, if_neg Bool.false_ne_true] at hspans
      exact iff_of_true hspans fun h => absurd h Bool.false_ne_true

/-- Two sessions with a record between them. -/
theorem combine_spans_two_sessions :
    let bytes : Bytes := [0x01, 0xc0, 0xc0, 0x10, 0x07,
      0x10, 0, 1, 0x61, 0, 0, 0, 0, 0, 0, 0, 5, 0, 0, 0, 0, 0, 0, 0, 7,
      0x11, 0, 0, 0, 0, 0, 0, 0, 1, 0, 1, 0x41, 1, 1,
      0x10, 0, 1, 0x62, 0, 0, 0, 0, 0, 0, 0, 3, 0, 0, 0, 0, 0, 0, 0, 9]
    ∃ dumps, decode bytes "file" = .ok dumps ∧
      (Dump.combine "t" dumps).1.session.Spans [⟨"a", 5, 7⟩, ⟨"b", 3, 9⟩] := by
  intro bytes
  let blocks : List Block :=
    [.header, .session ⟨"a", 5, 7⟩, .record ⟨⟨1⟩, ⟨"A", [true]⟩⟩, .session ⟨"b", 3, 9⟩]
  have hspells : Spells bytes blocks := spells_of_written (by decide +kernel) (by decide +kernel)
  have hmap : ((decode bytes "file").toOption.map List.length) = some 2 := by decide +kernel
  obtain ⟨dumps, hread, -⟩ := exists_decode_eq_ok hmap
  obtain ⟨others, hothers, hspans⟩ := combine_spans hread
  obtain rfl := hspells.unique hothers
  obtain ⟨-, -, hiff⟩ := hspans (List.cons_ne_nil _ _) "t"
  exact ⟨dumps, hread, hiff.mpr fun h => absurd h Bool.false_ne_true⟩

/-- A record comes first, and the combined session begins at time zero. -/
theorem combine_record_first :
    let bytes : Bytes := [0x01, 0xc0, 0xc0, 0x10, 0x07,
      0x11, 0, 0, 0, 0, 0, 0, 0, 1, 0, 1, 0x41, 1, 1,
      0x10, 0, 1, 0x73, 0, 0, 0, 0, 0, 0, 3, 0xe8, 0, 0, 0, 0, 0, 0, 4, 0xe2]
    let blocks : List Block :=
      [.header, .record ⟨⟨1⟩, ⟨"A", [true]⟩⟩, .session ⟨"s", 1000, 1250⟩]
    Spells bytes blocks ∧ sessions blocks = [⟨"s", 1000, 1250⟩] ∧
      ∃ dumps, decode bytes "file" = .ok dumps ∧
        (Dump.combine "t" dumps).1.session = ⟨"t", 0, 1250⟩ := by
  intro bytes blocks
  have hspells : Spells bytes blocks := spells_of_written (by decide +kernel) (by decide +kernel)
  have hsession : ((decode bytes "file").toOption.map fun dumps =>
      (Dump.combine "t" dumps).1.session) = some ⟨"t", 0, 1250⟩ := by
    decide +kernel
  exact ⟨hspells, rfl, exists_decode_eq_ok hsession⟩

end Payload

end TestCoverage

import Mathlib
import TestCoverage.Proofs.Dump.Reading

/-!
# Where reading fails

The offset of a fault is where the first block begins that cannot be read or added: what
stands before it is accepted, and whatever is cut off behind it the offset stays the same. A
payload that is accepted splits into blocks in one way (`Payload.Spells.unique`). If it is cut
inside a block, the block is truncated (`Payload.read_of_cut`).

`Payload.decode_take` puts this together.
-/

namespace TestCoverage

theorem Block.Spells.unique {front front' rest rest' : Bytes} {block block' : Block}
    (h : Block.Spells front block) (h' : Block.Spells front' block')
    (heq : front ++ rest = front' ++ rest') : block = block' ∧ front = front' ∧ rest = rest' := by
  obtain ⟨kind, tail, rfl⟩ := h.exists_kind
  obtain ⟨kind', tail', rfl⟩ := h'.exists_kind
  rw [List.cons_append, List.cons_append] at heq
  obtain ⟨hbyte, htail⟩ := List.cons.inj heq
  have hread := Block.reads_of_spells h 0 rest
  rw [htail, hbyte, Block.reads_of_spells h' 0 rest'] at hread
  obtain ⟨hblock, hcursor⟩ := Prod.mk.inj (Except.ok.inj hread)
  obtain ⟨-, hrest⟩ := Cursor.mk.inj hcursor
  rw [← hrest] at htail
  exact ⟨hblock.symm, by rw [hbyte, List.append_cancel_right htail], hrest.symm⟩

namespace Payload

theorem Spells.append {front rest : Bytes} {before after : List Block} (hfront : Spells front before)
    (hrest : Spells rest after) : Spells (front ++ rest) (before ++ after) := by
  induction hfront with
  | nil => exact hrest
  | cons hblock _ ih =>
    rw [List.append_assoc]
    exact .cons hblock ih

/-- Bytes split into blocks in one way. -/
theorem Spells.unique {bytes : Bytes} {blocks blocks' : List Block} (h : Spells bytes blocks)
    (h' : Spells bytes blocks') : blocks = blocks' := by
  induction h generalizing blocks' with
  | nil =>
    generalize hnil : ([] : Bytes) = bytes at h'
    cases h' with
    | nil => rfl
    | cons hblock _ =>
      obtain ⟨kind, tail, rfl⟩ := hblock.exists_kind
      cases hnil
  | @cons front rest block blocks hblock hrest ih =>
    generalize hbytes : front ++ rest = bytes at h'
    cases h' with
    | nil =>
      obtain ⟨kind, tail, rfl⟩ := hblock.exists_kind
      cases hbytes
    | cons hblock' hrest' =>
      obtain ⟨rfl, -, rfl⟩ := hblock.unique hblock' hbytes
      rw [ih hrest']

/-- A place inside the bytes falls into one block. -/
theorem Spells.exists_split {bytes : Bytes} {blocks : List Block} (h : Spells bytes blocks)
    {cut : Nat} (hcut : cut < bytes.length) :
    ∃ front piece rest before block after, bytes = front ++ (piece ++ rest) ∧
      blocks = before ++ block :: after ∧ Spells front before ∧ Block.Spells piece block ∧
        Spells rest after ∧ front.length ≤ cut ∧ cut < front.length + piece.length := by
  induction h generalizing cut with
  | nil => cases hcut
  | @cons piece rest block blocks hblock hrest ih =>
    by_cases hfirst : cut < piece.length
    · exact ⟨[], piece, rest, [], block, blocks, rfl, rfl, .nil, hblock, hrest, Nat.zero_le _,
        by simpa using hfirst⟩
    · rw [List.length_append] at hcut
      have hinside : cut - piece.length < rest.length := by omega
      obtain ⟨front, inner, tail, before, other, after, rfl, rfl, hfront, hinner, htail, hle, hlt⟩ :=
        ih hinside
      refine ⟨piece ++ front, inner, tail, block :: before, other, after,
        (List.append_assoc ..).symm, rfl, .cons hblock hfront, hinner, htail, ?_, ?_⟩
      · rw [List.length_append]
        omega
      · rw [List.length_append]
        omega

/-! ## Boundaries -/

/-- What stands before the place are blocks, and what stands after it are blocks. -/
def Boundary (bytes : Bytes) (place : Nat) : Prop :=
  place ≤ bytes.length ∧ (∃ before, Spells (bytes.take place) before) ∧
    ∃ after, Spells (bytes.drop place) after

/-- The last boundary before a place that is none. -/
structure LastBoundary (bytes : Bytes) (place last : Nat) : Prop where
  boundary : Boundary bytes last
  lt : last < place
  not_boundary : ∀ other, last < other → other ≤ place → ¬ Boundary bytes other

theorem boundary_append {front rest : Bytes} {before after : List Block}
    (hfront : Spells front before) (hrest : Spells rest after) :
    Boundary (front ++ rest) front.length := by
  refine ⟨?_, ⟨before, ?_⟩, after, ?_⟩
  · rw [List.length_append]
    exact Nat.le_add_right _ _
  · rwa [List.take_left]
  · rwa [List.drop_left]

theorem exists_foldlM_add {before after : List Block} {start dumps : List Dump}
    (h : (before ++ after).foldlM add start = .ok dumps) :
    ∃ reached, before.foldlM add start = .ok reached := by
  rw [List.foldlM_append] at h
  cases hreached : before.foldlM add start with
  | error fault => rw [hreached] at h; cases h
  | ok reached => exact ⟨reached, rfl⟩

/-- A payload that is accepted is accepted up to each of its boundaries. -/
theorem read_take_of_boundary {bytes : Bytes} {dumps : List Dump} (h : read bytes = .ok dumps)
    {place : Nat} (hplace : Boundary bytes place) :
    ∃ held, read (bytes.take place) = .ok held := by
  obtain ⟨blocks, hspells, hheader, hadd⟩ := read_eq_ok_iff.mp h
  obtain ⟨-, ⟨before, hbefore⟩, after, hafter⟩ := hplace
  have happend := hbefore.append hafter
  rw [List.take_append_drop] at happend
  obtain rfl := hspells.unique happend
  obtain ⟨held, hheld⟩ := exists_foldlM_add hadd
  refine ⟨held.reverse, read_eq_ok_iff.mpr ⟨before, hbefore, fun block hblock => ?_, ?_⟩⟩
  · refine hheader block ?_
    rw [List.head?_append, hblock, Option.some_or]
    rfl
  · rw [List.reverse_reverse, hheld]

/-! ## Faults -/

theorem Begins.mono {bytes part : Bytes} (h : Begins bytes) (hpart : part <+: bytes) :
    Begins part := by
  obtain ⟨rest, rfl⟩ := hpart
  cases part with
  | nil => exact fun _ h => by cases h
  | cons byte part => exact h

/-- What stands before the offset of a fault is accepted, and the offset does not depend on what
follows. -/
theorem read_take_of_error {bytes : Bytes} {offset : Nat} {fault : Block.Fault}
    (h : read bytes = .error (offset, fault)) :
    offset < bytes.length ∧ (∃ dumps, read (bytes.take offset) = .ok dumps) ∧
      ∀ place, offset < place → place ≤ bytes.length →
        ∃ other, read (bytes.take place) = .error (offset, other) := by
  by_cases hbegins : Begins bytes
  · obtain ⟨front, rest, blocks, reached, rfl, hfront, hreached, rfl | hstuck⟩ :=
      exists_spells_or_stuck [] bytes
    · rw [List.append_nil] at h hbegins
      rw [read_of_spells hbegins hfront hreached] at h
      cases h
    · obtain ⟨other, hother⟩ := read_of_stuck hbegins hfront hreached hstuck
      obtain ⟨rfl, -⟩ := Prod.mk.inj (Except.error.inj (h.symm.trans hother))
      refine ⟨?_, ?_, fun place hlt _ => ?_⟩
      · rw [List.length_append]
        exact Nat.lt_add_of_pos_right (List.length_pos_iff.mpr hstuck.1)
      · rw [List.take_left]
        exact ⟨_, read_of_spells (hbegins.mono (List.prefix_append ..)) hfront hreached⟩
      · have htake : (front ++ rest).take place = front ++ rest.take (place - front.length) := by
          rw [List.take_append, List.take_of_length_le (Nat.le_of_lt hlt)]
        have hne : rest.take (place - front.length) ≠ [] := by
          rw [Ne, List.take_eq_nil_iff, not_or]
          exact ⟨Nat.sub_ne_zero_of_lt hlt, hstuck.1⟩
        rw [htake]
        refine read_of_stuck ?_ hfront hreached (hstuck.mono (List.take_prefix ..) hne)
        rw [← htake]
        exact hbegins.mono (List.take_prefix ..)
  · obtain ⟨byte, rest, rfl, hbyte, hread⟩ := read_of_not_begins hbegins
    obtain ⟨rfl, -⟩ := Prod.mk.inj (Except.error.inj (h.symm.trans hread))
    refine ⟨Nat.succ_pos _, ⟨[], rfl⟩, fun place hlt _ => ?_⟩
    obtain _ | place := place
    · cases hlt
    · exact ⟨.missingHeader byte, by rw [List.take_succ_cons, read, if_pos hbyte]⟩

/-- Blocks and then a block that ends too early: that block is truncated. -/
theorem read_of_cut {front tail part : Bytes} {blocks : List Block} {block : Block}
    {reached : List Dump} {kind : Block.Kind} (hbegins : Begins (front ++ kind.byte :: part))
    (hfront : Spells front blocks) (hadd : blocks.foldlM add [] = .ok reached)
    (hblock : Block.Spells (kind.byte :: tail) block) (hpart : part <+: tail) (hne : part ≠ tail) :
    read (front ++ kind.byte :: part) = .error (front.length, .truncated kind) := by
  obtain ⟨left, hleft, hread⟩ : ∃ left, (kind.byte :: part).length ≤ left ∧ _ :=
    readFrom_append hfront hadd le_rfl 0
  obtain _ | left := left
  · cases hleft
  rw [read_of_begins hbegins, Cursor.start, hread, readFrom, Block.read_of_cut hblock hpart hne,
    Nat.zero_add]

/-- A payload that is accepted and cut inside a block is truncated at the beginning of that
block. -/
theorem read_take_of_not_boundary {bytes : Bytes} {dumps : List Dump} (h : read bytes = .ok dumps)
    {place : Nat} (hlt : place < bytes.length) (hplace : ¬ Boundary bytes place) :
    ∃ (last : Nat) (kind : Block.Kind), LastBoundary bytes place last ∧
      bytes[last]? = some kind.byte ∧
      read (bytes.take place) = .error (last, .truncated kind) := by
  obtain ⟨blocks, hspells, hheader, hadd⟩ := read_eq_ok_iff.mp h
  have hbegins := (begins_iff hspells).mpr hheader
  obtain ⟨front, piece, rest, before, block, after, rfl, rfl, hfront, hpiece, hrest, hle, hend⟩ :=
    hspells.exists_split hlt
  obtain ⟨reached, hreached⟩ := exists_foldlM_add hadd
  have hboundary : Boundary (front ++ (piece ++ rest)) front.length :=
    boundary_append hfront (.cons hpiece hrest)
  have hinside : front.length < place := by
    refine lt_of_le_of_ne hle fun heq => hplace ?_
    rwa [← heq]
  -- the block is cut somewhere after its first byte
  obtain ⟨kind, tail, rfl⟩ := hpiece.exists_kind
  obtain ⟨count, rfl⟩ : ∃ count, place = front.length + (count + 1) :=
    ⟨place - front.length - 1, by omega⟩
  have hcount : count < tail.length := by
    simp only [List.length_cons] at hend
    omega
  have htake : (front ++ (kind.byte :: tail ++ rest)).take (front.length + (count + 1)) =
      front ++ kind.byte :: tail.take count := by
    rw [List.take_length_add_append, List.cons_append, List.take_succ_cons,
      List.take_append_of_le_length (Nat.le_of_lt hcount)]
  have hne : tail.take count ≠ tail := by
    rw [Ne, List.take_eq_self_iff]
    exact Nat.not_le.mpr hcount
  have hread : read (front ++ kind.byte :: tail.take count) =
      .error (front.length, .truncated kind) :=
    read_of_cut (htake ▸ hbegins.mono (List.take_prefix ..)) hfront hreached hpiece
      (List.take_prefix ..) hne
  rw [← htake] at hread
  refine ⟨front.length, kind, ⟨hboundary, hinside, fun other hother hle hcut => ?_⟩, ?_, hread⟩
  · obtain ⟨held, hheld⟩ := read_take_of_boundary h hcut
    obtain ⟨-, -, hfails⟩ := read_take_of_error hread
    obtain ⟨fault, hfault⟩ := hfails other hother (by rw [List.length_take]; omega)
    rw [List.take_take, Nat.min_eq_left hle, hheld] at hfault
    cases hfault
  · rw [List.getElem?_append_right le_rfl, Nat.sub_self]
    rfl

theorem decode_eq_error_iff {bytes : Bytes} {provenance : String} {malformed : MalformedPayload} :
    decode bytes provenance = .error malformed ↔
      read bytes = .error (malformed.offset, malformed.fault) ∧
        malformed.provenance = provenance := by
  obtain ⟨place, offset, fault⟩ := malformed
  unfold decode
  cases read bytes with
  | ok dumps => simp [Except.mapError]
  | error found =>
    obtain ⟨found, foundFault⟩ := found
    simp [Except.mapError, and_comm, eq_comm]

/-- The offset of a fault is where the first block begins that cannot be read: what stands before
it is accepted, and everything that reaches beyond it fails with the same offset. So a payload
that is accepted is also accepted up to each of its boundaries, and up to any other place it is
truncated at the last boundary before that place. -/
theorem decode_take (bytes : Bytes) (provenance : String) :
    (∀ malformed, decode bytes provenance = .error malformed →
      malformed.offset < bytes.length ∧
      (∃ dumps, decode (bytes.take malformed.offset) provenance = .ok dumps) ∧
      ∀ place, malformed.offset < place → place ≤ bytes.length →
        ∃ other, decode (bytes.take place) provenance = .error other ∧
          other.offset = malformed.offset) ∧
    (∀ dumps, decode bytes provenance = .ok dumps → ∀ place < bytes.length,
      (Boundary bytes place → ∃ held, decode (bytes.take place) provenance = .ok held) ∧
      (¬ Boundary bytes place → ∃ (last : Nat) (kind : Block.Kind),
        LastBoundary bytes place last ∧ bytes[last]? = some kind.byte ∧
          decode (bytes.take place) provenance =
            .error ⟨provenance, last, .truncated kind⟩)) := by
  simp only [decode_eq_ok_iff_read, decode_eq_error_iff]
  constructor
  · rintro malformed ⟨h, rfl⟩
    obtain ⟨hlt, hbefore, hafter⟩ := read_take_of_error h
    refine ⟨hlt, hbefore, fun place hplace hle => ?_⟩
    obtain ⟨fault, hfault⟩ := hafter place hplace hle
    exact ⟨⟨malformed.provenance, malformed.offset, fault⟩, ⟨hfault, rfl⟩, rfl⟩
  · intro dumps h place hlt
    refine ⟨read_take_of_boundary h, fun hplace => ?_⟩
    obtain ⟨last, kind, hlast, hkind, hread⟩ := read_take_of_not_boundary h hlt hplace
    exact ⟨last, kind, hlast, hkind, hread, trivial⟩

/-- After a header comes a byte that begins no block, and of two headers the second is cut. -/
theorem decode_take_headers :
    let header : Bytes := [0x01, 0xC0, 0xC0, 0x10, 0x07]
    (∃ other, decode ((header ++ [0x02, 0x00]).take 6) "file" = .error other ∧
      other.offset = 5) ∧
    ∃ last kind, LastBoundary (header ++ header) 7 last ∧
      decode ((header ++ header).take 7) "file" = .error ⟨"file", last, .truncated kind⟩ := by
  intro header
  have hfault : decode (header ++ [0x02, 0x00]) "file" = .error ⟨"file", 5, .unknownKind 0x02⟩ := rfl
  have hread : read (header ++ header) = .ok [] := rfl
  have hcut : ¬ Boundary (header ++ header) 7 := by
    intro hboundary
    obtain ⟨held, hheld⟩ := read_take_of_boundary hread hboundary
    cases hheld
  constructor
  · obtain ⟨-, -, hsame⟩ := (decode_take (header ++ [0x02, 0x00]) "file").1 _ hfault
    exact hsame 6 (by decide) (by decide)
  · obtain ⟨last, kind, hlast, -, htruncated⟩ :=
      ((decode_take (header ++ header) "file").2 [] (decode_eq_ok_iff_read.mpr hread) 7
        (by decide)).2 hcut
    exact ⟨last, kind, hlast, htruncated⟩

end Payload

end TestCoverage

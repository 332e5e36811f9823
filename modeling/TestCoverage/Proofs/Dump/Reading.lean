import Mathlib
import TestCoverage.Dump.Payload
import TestCoverage.Proofs.Dump.Grammar
import TestCoverage.Proofs.Probe.Store

/-!
# What payloads are accepted

A payload is accepted if it is a sequence of blocks (`Payload.Spells`) that begins with a
header, or nothing, and if every record agrees with what its dump has of the class version.
What the blocks hold is said block by block, from the first to the last
(`Payload.Holds`). `Payload.decode_eq_ok_iff_holds` is that reading accepts these payloads and no
others, and that it gives what their blocks hold.

Reading goes through the blocks in front (`Payload.readFrom_append`), and wherever it stops
it has gone through blocks (`Payload.exists_spells_or_stuck`).
-/

namespace TestCoverage.Payload

/-! ## The grammar -/

/-- The bytes are the blocks, one after the other. -/
inductive Spells : Bytes → List Block → Prop where
  | nil : Spells [] []
  | cons {bytes rest : Bytes} {block : Block} {blocks : List Block}
      (hblock : Block.Spells bytes block) (hrest : Spells rest blocks) :
      Spells (bytes ++ rest) (block :: blocks)

/-- What blocks hold. The information of a session begins a dump. The last dump takes a
record; if there is none yet, a dump without a name is begun. -/
inductive Holds : List Block → List Dump → Prop where
  | nil : Holds [] []
  | header {blocks : List Block} {dumps : List Dump} (h : Holds blocks dumps) :
      Holds (blocks ++ [.header]) dumps
  | session {blocks : List Block} {dumps : List Dump} (session : Session)
      (h : Holds blocks dumps) :
      Holds (blocks ++ [.session session]) (dumps ++ [⟨session, .empty⟩])
  | record {blocks : List Block} {dumps : List Dump} {dump : Dump} {record : ProbeRecord}
      {store : ProbeStore} (h : Holds blocks (dumps ++ [dump]))
      (htakes : dump.store.Takes record store) :
      Holds (blocks ++ [.record record]) (dumps ++ [⟨dump.session, store⟩])
  | first {blocks : List Block} {record : ProbeRecord} {store : ProbeStore}
      (h : Holds blocks []) (htakes : ProbeStore.empty.Takes record store) :
      Holds (blocks ++ [.record record]) [⟨⟨"", 0, 0⟩, store⟩]

/-! ## What blocks hold -/

theorem foldlM_add_snoc {blocks : List Block} {block : Block} {start dumps : List Dump} :
    (blocks ++ [block]).foldlM add start = .ok dumps ↔
      ∃ reached, blocks.foldlM add start = .ok reached ∧ add reached block = .ok dumps := by
  have hone (reached : List Dump) : [block].foldlM add reached = add reached block := by
    rw [List.foldlM_cons]
    cases add reached block <;> rfl
  rw [List.foldlM_append]
  cases blocks.foldlM add start with
  | error fault =>
    constructor
    · intro h
      cases h
    · rintro ⟨_, h, -⟩
      cases h
  | ok reached =>
    rw [show (Except.ok reached >>= fun reached => [block].foldlM add reached) = _ from hone reached]
    simp

theorem add_record_eq_ok_iff {dump : Dump} {others dumps : List Dump} {record : ProbeRecord} :
    add (dump :: others) (.record record) = .ok dumps ↔
      ∃ store, dump.store.Takes record store ∧ dumps = ⟨dump.session, store⟩ :: others := by
  simp only [← ProbeStore.put_eq_ok_iff, add]
  cases dump.store.put record with
  | error fault => simp [Except.map]
  | ok store => simp [Except.map, eq_comm]

/-- A dump without a name is begun for a record that comes first. -/
theorem add_first_record_eq_ok_iff {dumps : List Dump} {record : ProbeRecord} :
    add [] (.record record) = .ok dumps ↔
      ∃ store, ProbeStore.empty.Takes record store ∧ dumps = [⟨.anonymous, store⟩] := by
  simp only [← ProbeStore.put_eq_ok_iff, add]
  cases ProbeStore.empty.put record with
  | error fault => simp [Except.map]
  | ok store => simp [Except.map, eq_comm]

theorem foldlM_add_of_holds {blocks : List Block} {dumps : List Dump} (h : Holds blocks dumps) :
    blocks.foldlM add [] = .ok dumps.reverse := by
  induction h with
  | nil => rfl
  | header _ ih => exact foldlM_add_snoc.mpr ⟨_, ih, rfl⟩
  | session session _ ih =>
    rw [List.reverse_append]
    exact foldlM_add_snoc.mpr ⟨_, ih, rfl⟩
  | record _ htakes ih =>
    rw [List.reverse_append] at ih ⊢
    exact foldlM_add_snoc.mpr ⟨_, ih, add_record_eq_ok_iff.mpr ⟨_, htakes, rfl⟩⟩
  | first _ htakes ih =>
    exact foldlM_add_snoc.mpr ⟨_, ih, add_first_record_eq_ok_iff.mpr ⟨_, htakes, rfl⟩⟩

theorem holds_of_foldlM_add {blocks : List Block} {dumps : List Dump}
    (h : blocks.foldlM add [] = .ok dumps) : Holds blocks dumps.reverse := by
  induction blocks using List.reverseRecOn generalizing dumps with
  | nil =>
    obtain ⟨rfl⟩ := Except.ok.inj h
    exact .nil
  | append_singleton blocks block ih =>
    obtain ⟨reached, hreached, hadd⟩ := foldlM_add_snoc.mp h
    have hblocks := ih hreached
    cases block with
    | header =>
      obtain ⟨rfl⟩ := Except.ok.inj hadd
      exact .header hblocks
    | session session =>
      obtain ⟨rfl⟩ := Except.ok.inj hadd
      rw [List.reverse_cons]
      exact .session session hblocks
    | record record =>
      cases reached with
      | nil =>
        obtain ⟨store, htakes, rfl⟩ := add_first_record_eq_ok_iff.mp hadd
        exact .first hblocks htakes
      | cons dump others =>
        obtain ⟨store, htakes, rfl⟩ := add_record_eq_ok_iff.mp hadd
        rw [List.reverse_cons] at hblocks ⊢
        exact .record hblocks htakes

/-! ## Going through blocks -/

/-- Reading goes through the blocks in front. -/
theorem readFrom_append {front rest : Bytes} {blocks : List Block} (hfront : Spells front blocks)
    {dumps reached : List Dump} (hadd : blocks.foldlM add dumps = .ok reached) {steps : Nat}
    (hsteps : (front ++ rest).length ≤ steps) (offset : Nat) :
    ∃ left, rest.length ≤ left ∧ readFrom steps dumps ⟨offset, front ++ rest⟩ =
      readFrom left reached ⟨offset + front.length, rest⟩ := by
  induction hfront generalizing dumps steps offset with
  | nil =>
    obtain ⟨rfl⟩ := Except.ok.inj hadd
    exact ⟨steps, hsteps, rfl⟩
  | @cons bytes more block blocks hblock _ ih =>
    obtain ⟨kind, tail, rfl⟩ := hblock.exists_kind
    rw [List.foldlM_cons] at hadd
    cases hstep : add dumps block with
    | error fault => rw [hstep] at hadd; cases hadd
    | ok next =>
      rw [hstep] at hadd
      obtain _ | steps := steps
      · simp at hsteps
      · have hsteps' : (more ++ rest).length ≤ steps := by
          simp only [List.length_append, List.length_cons] at hsteps ⊢
          omega
        obtain ⟨left, hleft, hread⟩ := ih hadd hsteps' (offset + (kind.byte :: tail).length)
        refine ⟨left, hleft, ?_⟩
        have hblock := Block.reads_of_spells hblock (offset + 1) (more ++ rest)
        have hoffset : offset + 1 + tail.length = offset + (kind.byte :: tail).length := by
          rw [List.length_cons]
          omega
        rw [List.append_assoc, List.cons_append, readFrom, hblock, hoffset]
        simp only [hstep]
        rw [hread, List.length_append, ← Nat.add_assoc]

theorem readFrom_of_spells {bytes : Bytes} {blocks : List Block} (hbytes : Spells bytes blocks)
    {dumps reached : List Dump} (hadd : blocks.foldlM add dumps = .ok reached) {steps : Nat}
    (hsteps : bytes.length ≤ steps) (offset : Nat) :
    readFrom steps dumps ⟨offset, bytes⟩ = .ok reached.reverse := by
  rw [← List.append_nil bytes] at hsteps ⊢
  obtain ⟨left, -, hread⟩ := readFrom_append hbytes hadd hsteps offset
  rw [hread, readFrom]

/-- Something is left, and no block in front of it can be added. -/
def Stuck (dumps : List Dump) (bytes : Bytes) : Prop :=
  bytes ≠ [] ∧ ∀ front block, front <+: bytes → Block.Spells front block →
    ∃ fault, add dumps block = .error fault

theorem Stuck.mono {dumps : List Dump} {bytes part : Bytes} (h : Stuck dumps bytes)
    (hpart : part <+: bytes) (hne : part ≠ []) : Stuck dumps part :=
  ⟨hne, fun front block hfront => h.2 front block (hfront.trans hpart)⟩

/-- Reading stops where it is stuck. -/
theorem readFrom_of_stuck {dumps : List Dump} {bytes : Bytes} (h : Stuck dumps bytes)
    {steps : Nat} (hsteps : bytes.length ≤ steps) (offset : Nat) :
    ∃ fault, readFrom steps dumps ⟨offset, bytes⟩ = .error (offset, fault) := by
  obtain ⟨byte, rest, rfl⟩ := List.exists_cons_of_ne_nil h.1
  obtain _ | steps := steps
  · cases hsteps
  rw [readFrom]
  cases hread : Block.read byte ⟨offset + 1, rest⟩ with
  | error fault => exact ⟨fault, rfl⟩
  | ok answer =>
    obtain ⟨block, next⟩ := answer
    obtain ⟨bytes, hspells, hrest⟩ := Block.exists_spells_of_read hread
    obtain ⟨fault, hadd⟩ := h.2 (byte :: bytes) block ⟨next.rest, by rw [List.cons_append, ← hrest]⟩
      hspells
    simp only [hadd]
    exact ⟨_, rfl⟩

/-- Reading goes through blocks until nothing is left or it is stuck. -/
theorem exists_spells_or_stuck (dumps : List Dump) (bytes : Bytes) :
    ∃ front rest blocks reached, bytes = front ++ rest ∧ Spells front blocks ∧
      blocks.foldlM add dumps = .ok reached ∧ (rest = [] ∨ Stuck reached rest) := by
  induction hlength : bytes.length using Nat.strong_induction_on generalizing dumps bytes with
  | _ length ih =>
    by_cases hstuck : Stuck dumps bytes
    · exact ⟨[], bytes, [], dumps, rfl, .nil, rfl, Or.inr hstuck⟩
    by_cases hnil : bytes = []
    · exact ⟨[], bytes, [], dumps, rfl, .nil, rfl, Or.inl hnil⟩
    -- some block can be added
    simp only [Stuck, not_and, not_forall, not_exists] at hstuck
    obtain ⟨front, block, ⟨more, rfl⟩, hspells, hadd⟩ := hstuck hnil
    cases hnext : add dumps block with
    | error fault => exact absurd hnext (hadd fault)
    | ok next =>
      obtain ⟨kind, tail, rfl⟩ := hspells.exists_kind
      have hlt : more.length < length := by
        rw [← hlength, List.length_append, List.length_cons]
        omega
      obtain ⟨middle, rest, blocks, reached, rfl, hmiddle, hreached, hend⟩ := ih _ hlt next more rfl
      refine ⟨kind.byte :: tail ++ middle, rest, block :: blocks, reached, ?_, .cons hspells hmiddle,
        ?_, hend⟩
      · rw [List.append_assoc]
      · rw [List.foldlM_cons, hnext]
        exact hreached

/-! ## Whole payloads -/

/-- The bytes begin with a header, or there are none. -/
def Begins (bytes : Bytes) : Prop := ∀ byte ∈ bytes.head?, byte = Block.Kind.header.byte

theorem read_of_begins {bytes : Bytes} (h : Begins bytes) :
    read bytes = readFrom bytes.length [] (.start bytes) := by
  cases bytes with
  | nil => rfl
  | cons byte rest => rw [read, if_neg (not_not.mpr (h byte rfl))]

theorem read_of_not_begins {bytes : Bytes} (h : ¬ Begins bytes) :
    ∃ byte rest, bytes = byte :: rest ∧ byte ≠ Block.Kind.header.byte ∧
      read bytes = .error (0, .missingHeader byte) := by
  cases bytes with
  | nil => exact absurd (fun _ h => by cases h) h
  | cons byte rest =>
    have hbyte : byte ≠ Block.Kind.header.byte := fun heq => h fun other hother => by
      obtain ⟨rfl⟩ := Option.some.inj hother
      exact heq
    exact ⟨byte, rest, rfl, hbyte, by rw [read, if_pos hbyte]⟩

theorem begins_iff {bytes : Bytes} {blocks : List Block} (h : Spells bytes blocks) :
    Begins bytes ↔ ∀ block ∈ blocks.head?, block = .header := by
  cases h with
  | nil => simp [Begins]
  | cons hblock _ => cases hblock <;> simp [Begins, Block.Kind.byte]

theorem read_of_spells {bytes : Bytes} {blocks : List Block} {reached : List Dump}
    (hbegins : Begins bytes) (hbytes : Spells bytes blocks)
    (hadd : blocks.foldlM add [] = .ok reached) : read bytes = .ok reached.reverse := by
  rw [read_of_begins hbegins, Cursor.start, readFrom_of_spells hbytes hadd le_rfl]

theorem read_of_stuck {front rest : Bytes} {blocks : List Block} {reached : List Dump}
    (hbegins : Begins (front ++ rest)) (hfront : Spells front blocks)
    (hadd : blocks.foldlM add [] = .ok reached) (hstuck : Stuck reached rest) :
    ∃ fault, read (front ++ rest) = .error (front.length, fault) := by
  obtain ⟨left, hleft, hread⟩ := readFrom_append hfront hadd le_rfl 0
  obtain ⟨fault, hfault⟩ := readFrom_of_stuck hstuck hleft (0 + front.length)
  refine ⟨fault, ?_⟩
  rw [read_of_begins hbegins, Cursor.start, hread, hfault, Nat.zero_add]

theorem read_eq_ok_iff {bytes : Bytes} {dumps : List Dump} :
    read bytes = .ok dumps ↔
      ∃ blocks, Spells bytes blocks ∧ (∀ block ∈ blocks.head?, block = .header) ∧
        blocks.foldlM add [] = .ok dumps.reverse := by
  constructor
  · intro h
    by_cases hbegins : Begins bytes
    · obtain ⟨front, rest, blocks, reached, rfl, hfront, hreached, rfl | hstuck⟩ :=
        exists_spells_or_stuck [] bytes
      · rw [List.append_nil] at h hbegins ⊢
        obtain ⟨rfl⟩ := Except.ok.inj (h.symm.trans (read_of_spells hbegins hfront hreached))
        exact ⟨blocks, hfront, (begins_iff hfront).mp hbegins,
          by rw [List.reverse_reverse, hreached]⟩
      · obtain ⟨fault, hfault⟩ := read_of_stuck hbegins hfront hreached hstuck
        rw [hfault] at h
        cases h
    · obtain ⟨_, _, -, -, hread⟩ := read_of_not_begins hbegins
      rw [hread] at h
      cases h
  · rintro ⟨blocks, hspells, hheader, hadd⟩
    rw [read_of_spells ((begins_iff hspells).mpr hheader) hspells hadd, List.reverse_reverse]

theorem decode_eq_ok_iff_read {bytes : Bytes} {provenance : String} {dumps : List Dump} :
    decode bytes provenance = .ok dumps ↔ read bytes = .ok dumps := by
  unfold decode
  cases read bytes <;> simp [Except.mapError]

/-- A payload is accepted if it is a sequence of blocks that begins with a header, or nothing,
and if every record agrees with what its dump has of the class version. Its dumps are what the
blocks hold. -/
theorem decode_eq_ok_iff_holds (bytes : Bytes) (provenance : String) (dumps : List Dump) :
    decode bytes provenance = .ok dumps ↔
      ∃ blocks, Spells bytes blocks ∧ (∀ block ∈ blocks.head?, block = .header) ∧
        Holds blocks dumps := by
  rw [decode_eq_ok_iff_read, read_eq_ok_iff]
  refine exists_congr fun blocks => and_congr_right fun _ => and_congr_right fun _ => ?_
  constructor
  · intro h
    have hholds := holds_of_foldlM_add h
    rwa [List.reverse_reverse] at hholds
  · exact foldlM_add_of_holds

end TestCoverage.Payload

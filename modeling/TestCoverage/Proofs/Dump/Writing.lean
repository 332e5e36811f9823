import Mathlib
import TestCoverage.Proofs.Dump.Offsets
import TestCoverage.Proofs.Dump.Payload
import TestCoverage.Sink

/-!
# Payloads written call by call

A writer begins with a header and is called for a session, for a record or for a dump as often as
one likes. A call is an attempt to write blocks (`Payload.Call.output_eq`): they are all written if
they all fit, and else the call is refused after the first one that does not fit. The first byte of
that block has been written by then, and for a record its identifier and perhaps its name.

So if no call was refused, the payload reads back as what the calls were for. After the first call
that was refused the payload is truncated, where the block begins that did not fit.

* `Block.begun_of_not_writable`: what is left of a block that does not fit.
* `Payload.AgreeingAfter.exists_foldlM_add`: blocks whose records agree can be added.
* `Payload.writtenAfter_read`: what can be read after which calls.
-/

namespace TestCoverage

theorem Sink.write_unlimited (written bytes : Bytes) :
    (⟨none, written⟩ : Sink).write bytes = (⟨none, written ++ bytes⟩, true) := by
  simp [Sink.write, Sink.room]

/-! ## Blocks that do not fit -/

namespace Block

def kind : Block → Kind
  | .header => .header
  | .session _ => .session
  | .record _ => .record

theorem bytes_writeText_of_not_fits {text : String} (h : ¬ Fits text) :
    (writeText text).bytes = [] := by
  unfold Fits at h
  simp [writeText, Nat.not_le.mp h]

/-- Nothing follows a text that does not fit. -/
theorem bytes_append_of_not_fits {text : String} (h : ¬ Fits text) (front : Bytes) (rest : Output) :
    (.ofBytes front ++ writeText text ++ rest : Output).bytes = front := by
  rw [Output.append_of_rejected, Output.bytes_append rfl, bytes_writeText_of_not_fits h]
  · exact List.append_nil front
  · rw [Ne, Output.rejection_append_eq_none_iff, writeText_rejection_eq_none_iff]
    exact fun hboth => h hboth.2

theorem bytes_writeProbes_of_le {probes : List Bool} (h : UInt32.size ≤ probes.length) :
    (writeProbes probes).bytes = [] := by
  simp [writeProbes, h]

theorem fits_empty : Fits "" := Nat.zero_le _

/-- The block has been begun with these bytes, but something is missing. -/
def Begun (bytes : Bytes) (kind : Kind) : Prop :=
  ∃ part tail block, bytes = kind.byte :: part ∧ Spells (kind.byte :: tail) block ∧
    part <+: tail ∧ part ≠ tail

theorem begun_of_write {block : Block} (hblock : block.Writable) {kind : Kind} {part more : Bytes}
    (hbytes : block.write.bytes = kind.byte :: (part ++ more)) (hmore : more ≠ []) :
    Begun (kind.byte :: part) kind := by
  refine ⟨part, part ++ more, block, rfl, ?_, List.prefix_append .., ?_⟩
  · rw [← hbytes]
    exact spells_write hblock
  · intro heq
    exact hmore (List.self_eq_append_right.mp heq)

/-- A block that does not fit is begun: other blocks would begin with the same bytes. -/
theorem begun_of_not_writable {block : Block} (h : ¬ block.Writable) :
    Begun block.write.bytes block.kind := by
  cases block with
  | header => exact absurd trivial h
  | session info =>
    rw [write, bytes_append_of_not_fits h]
    exact @begun_of_write (.session ⟨"", 0, 0⟩) fits_empty .session [] _ rfl (List.cons_ne_nil _ _)
  | record data =>
    by_cases hname : Fits data.hits.className
    · have hprobes : UInt32.size ≤ data.hits.probes.length :=
        Nat.not_lt.mp fun hlt => h ⟨hname, hlt⟩
      have hwhole : (Block.record ⟨data.id, ⟨data.hits.className, []⟩⟩).Writable :=
        ⟨hname, Nat.succ_pos _⟩
      have hbytes := @bytes_write_record ⟨data.id, ⟨data.hits.className, []⟩⟩ hname
      rw [← List.append_assoc] at hbytes
      rw [bytes_write_record hname, bytes_writeProbes_of_le hprobes, List.append_nil]
      exact begun_of_write hwhole hbytes (List.cons_ne_nil _ _)
    · have hwhole : (Block.record ⟨data.id, ⟨"", []⟩⟩).Writable := ⟨fits_empty, Nat.succ_pos _⟩
      rw [write, bytes_append_of_not_fits hname]
      exact begun_of_write hwhole (bytes_write_record fits_empty)
        (List.append_ne_nil_of_right_ne_nil _ (List.cons_ne_nil _ _))

end Block

/-! ## Records that agree -/

namespace ProbeStore

/-- What the store has for a class version agrees with a record of that version among these. -/
def MadeOf (store : ProbeStore) (records : List ProbeRecord) : Prop :=
  ∀ id hits, store.find? id = some hits →
    ∃ record ∈ records, record.id = id ∧ record.hits.Agrees hits

theorem madeOf_empty (records : List ProbeRecord) : empty.MadeOf records := by
  intro id hits h
  cases h

theorem MadeOf.cons {store next : ProbeStore} {records : List ProbeRecord} {record : ProbeRecord}
    (h : store.MadeOf records) (htakes : store.Takes record next) :
    next.MadeOf (record :: records) := by
  intro id hits hfound
  rw [htakes.find?_eq] at hfound
  split at hfound
  · next hid =>
    obtain ⟨source, hsource | hsource, hagrees, -⟩ := Hits.exists_of_join hfound 0
    · obtain ⟨earlier, hmem, hearlier, hsame⟩ := h id source hsource
      exact ⟨earlier, List.mem_cons_of_mem _ hmem, hearlier, hsame.trans hagrees⟩
    · obtain rfl := Option.some.inj hsource
      exact ⟨record, List.mem_cons_self, hid, hagrees⟩
  · obtain ⟨earlier, hmem, hearlier, hsame⟩ := h id hits hfound
    exact ⟨earlier, List.mem_cons_of_mem _ hmem, hearlier, hsame⟩

/-- A record that agrees with those the store is made of is put. -/
theorem MadeOf.exists_takes {store : ProbeStore} {records : List ProbeRecord} {record : ProbeRecord}
    (h : store.MadeOf records)
    (hagree : ∀ earlier ∈ records, earlier.id = record.id → earlier.hits.Agrees record.hits) :
    ∃ next, store.Takes record next := by
  have hexisting : ∀ existing, store.find? record.id = some existing →
      existing.Agrees record.hits := by
    intro existing hfound
    obtain ⟨earlier, hmem, hid, hsame⟩ := h record.id existing hfound
    exact hsame.symm.trans (hagree earlier hmem hid)
  obtain ⟨next, -, htakes⟩ := exists_put hexisting
  exact ⟨next, htakes⟩

end ProbeStore

namespace Payload

/-- No record disagrees with an earlier one of its class version, back to where the last session
begins. The given records are before the blocks. -/
def AgreeingAfter (records : List ProbeRecord) : List Block → Prop
  | [] => True
  | .header :: rest => AgreeingAfter records rest
  | .session _ :: rest => AgreeingAfter [] rest
  | .record record :: rest =>
    (∀ earlier ∈ records, earlier.id = record.id → earlier.hits.Agrees record.hits) ∧
      AgreeingAfter (record :: records) rest

instance decidableAgreeingAfter :
    (records : List ProbeRecord) → (blocks : List Block) → Decidable (AgreeingAfter records blocks)
  | _, [] => .isTrue trivial
  | records, .header :: rest => decidableAgreeingAfter records rest
  | _, .session _ :: rest => decidableAgreeingAfter [] rest
  | records, .record record :: rest =>
    have := decidableAgreeingAfter (record :: records) rest
    inferInstanceAs (Decidable ((∀ earlier ∈ records, earlier.id = record.id →
      earlier.hits.Agrees record.hits) ∧ AgreeingAfter (record :: records) rest))

theorem AgreeingAfter.left {before after : List Block} {records : List ProbeRecord}
    (h : AgreeingAfter records (before ++ after)) : AgreeingAfter records before := by
  induction before generalizing records with
  | nil => exact trivial
  | cons block rest ih =>
    cases block with
    | header => exact ih h
    | session info => exact ih h
    | record record => exact ⟨h.1, ih h.2⟩

theorem exists_add_record {dumps : List Dump} {records : List ProbeRecord} {record : ProbeRecord}
    (hdumps : ∀ dump ∈ dumps.head?, dump.store.MadeOf records)
    (hagree : ∀ earlier ∈ records, earlier.id = record.id → earlier.hits.Agrees record.hits) :
    ∃ next, add dumps (.record record) = .ok next ∧
      ∀ dump ∈ next.head?, dump.store.MadeOf (record :: records) := by
  cases dumps with
  | nil =>
    have hempty := ProbeStore.madeOf_empty records
    obtain ⟨store, htakes⟩ := hempty.exists_takes hagree
    refine ⟨_, add_first_record_eq_ok_iff.mpr ⟨store, htakes, rfl⟩, ?_⟩
    rintro _ ⟨⟩
    exact hempty.cons htakes
  | cons dump others =>
    have hdump := hdumps dump rfl
    obtain ⟨store, htakes⟩ := hdump.exists_takes hagree
    refine ⟨_, add_record_eq_ok_iff.mpr ⟨store, htakes, rfl⟩, ?_⟩
    rintro _ ⟨⟩
    exact hdump.cons htakes

/-- Blocks whose records agree are added one after the other. -/
theorem AgreeingAfter.exists_foldlM_add {blocks : List Block} {records : List ProbeRecord}
    {dumps : List Dump} (h : AgreeingAfter records blocks)
    (hdumps : ∀ dump ∈ dumps.head?, dump.store.MadeOf records) :
    ∃ reached, blocks.foldlM add dumps = .ok reached := by
  induction blocks generalizing records dumps with
  | nil => exact ⟨dumps, rfl⟩
  | cons block rest ih =>
    cases block with
    | header => exact ih h hdumps
    | session info =>
      have hdump : ∀ dump ∈ (Dump.ofSession info :: dumps).head?, dump.store.MadeOf [] := by
        rintro _ ⟨⟩
        exact ProbeStore.madeOf_empty []
      exact ih h hdump
    | record record =>
      obtain ⟨next, hadd, hnext⟩ := exists_add_record hdumps h.1
      rw [List.foldlM_cons, hadd]
      exact ih h.2 hnext

/-! ## Blocks that are written -/

/-- The blocks as they are written, after a header. -/
def bytesOf (blocks : List Block) : Bytes :=
  (Block.header :: blocks).flatMap fun block => block.write.bytes

theorem begins_bytesOf (blocks : List Block) (rest : Bytes) : Begins (bytesOf blocks ++ rest) := by
  rintro _ ⟨⟩
  rfl

theorem spells_bytesOf {blocks : List Block} (h : ∀ block ∈ blocks, block.Writable) :
    Spells (bytesOf blocks) (.header :: blocks) :=
  spells_flatMap_write (List.forall_mem_cons.mpr ⟨trivial, h⟩)

theorem exists_foldlM_add_header {blocks : List Block} (hagree : AgreeingAfter [] blocks) :
    ∃ reached, (Block.header :: blocks).foldlM add [] = .ok reached := by
  have hnone : ∀ dump ∈ ([] : List Dump).head?, dump.store.MadeOf [] := by rintro _ ⟨⟩
  exact hagree.exists_foldlM_add hnone

theorem exists_read_bytesOf {blocks : List Block} (h : ∀ block ∈ blocks, block.Writable)
    (hagree : AgreeingAfter [] blocks) :
    ∃ dumps, read (bytesOf blocks) = .ok dumps ∧ Holds (.header :: blocks) dumps := by
  obtain ⟨reached, hreached⟩ := exists_foldlM_add_header hagree
  have hbegins := begins_bytesOf blocks []
  rw [List.append_nil] at hbegins
  exact ⟨reached.reverse, read_of_spells hbegins (spells_bytesOf h) hreached,
    holds_of_foldlM_add hreached⟩

/-- Blocks and then one that does not fit: it is truncated. -/
theorem read_bytesOf_append {blocks : List Block} (h : ∀ block ∈ blocks, block.Writable)
    (hagree : AgreeingAfter [] blocks) {block : Block} (hblock : ¬ block.Writable) :
    read (bytesOf blocks ++ block.write.bytes) =
      .error ((bytesOf blocks).length, .truncated block.kind) := by
  obtain ⟨reached, hreached⟩ := exists_foldlM_add_header hagree
  obtain ⟨part, tail, other, hbytes, hspells, hpart, hne⟩ := Block.begun_of_not_writable hblock
  rw [hbytes]
  exact read_of_cut (begins_bytesOf blocks _) (spells_bytesOf h) hreached hspells hpart hne

/-! ## Calls -/

/-- What a writer is called for. -/
inductive Call where
  | session (info : Session)
  | record (data : ProbeRecord)
  | dump (dump : Dump)

namespace Call

def output : Call → Block.Output
  | .session info => writeSession info
  | .record data => writeRecord data
  | .dump given => writeDump given

def accepted (call : Call) : Bool := call.output.rejection.isNone

/-- What the call is for. Records without a hit are left out. -/
def blocks : Call → List Block
  | .session info => [.session info]
  | .record data => if data.hits.any then [.record data] else []
  | .dump given => blocksOf given

end Call

theorem exists_first_not {α : Type} {p : α → Prop} {list : List α} (h : ¬ ∀ item ∈ list, p item) :
    ∃ before item after, list = before ++ item :: after ∧ (∀ earlier ∈ before, p earlier) ∧
      ¬ p item := by
  induction list with
  | nil => exact absurd (List.forall_mem_nil p) h
  | cons first rest ih =>
    by_cases hfirst : p first
    · obtain ⟨before, item, after, rfl, hbefore, hitem⟩ :=
        ih fun hrest => h (List.forall_mem_cons.mpr ⟨hfirst, hrest⟩)
      exact ⟨first :: before, item, after, rfl, List.forall_mem_cons.mpr ⟨hfirst, hbefore⟩, hitem⟩
    · exact ⟨[], first, rest, rfl, List.forall_mem_nil p, hfirst⟩

/-- A call writes its blocks until one does not fit. -/
theorem Call.output_eq (call : Call) : call.output = Block.writeAll call.blocks := by
  cases call with
  | session info => rfl
  | record data =>
    rw [output, blocks, writeRecord]
    split <;> rfl
  | dump given => exact writeDump_eq given

theorem Call.accepted_iff (call : Call) :
    call.accepted = true ↔ ∀ block ∈ call.blocks, block.Writable := by
  rw [accepted, Option.isNone_iff_eq_none, output_eq, Block.writeAll_rejection_eq_none_iff]

theorem Call.bytes_of_accepted {call : Call} (h : call.accepted = true) :
    call.output.bytes = call.blocks.flatMap fun block => block.write.bytes := by
  rw [output_eq]
  exact Block.bytes_writeAll ((accepted_iff call).mp h)

/-- The first block of the call that does not fit, with those before it. -/
def Call.StopsAt (call : Call) (done : List Block) (block : Block) : Prop :=
  (∃ rest, call.blocks = done ++ block :: rest) ∧ (∀ earlier ∈ done, earlier.Writable) ∧
    ¬ block.Writable

theorem Call.exists_stopsAt {call : Call} (h : call.accepted = false) :
    ∃ done block, call.StopsAt done block := by
  have hsome : ¬ ∀ block ∈ call.blocks, block.Writable := by
    rw [← accepted_iff, h]
    exact Bool.false_ne_true
  obtain ⟨done, block, rest, hblocks, hdone, hblock⟩ := exists_first_not hsome
  exact ⟨done, block, ⟨rest, hblocks⟩, hdone, hblock⟩

/-- A call that is refused has begun to write the block that does not fit. -/
theorem Call.StopsAt.bytes {call : Call} {done : List Block} {block : Block}
    (h : call.StopsAt done block) :
    call.output.bytes = (done.flatMap fun block => block.write.bytes) ++ block.write.bytes := by
  obtain ⟨⟨rest, hblocks⟩, hdone, hblock⟩ := h
  rw [output_eq, hblocks]
  exact Block.bytes_writeAll_append hdone hblock rest

/-! ## Sinks -/

/-- What a sink that never fails has after the calls. -/
def writtenAfter (calls : List Call) : Bytes :=
  (calls.foldl (fun sink call => (sink.write call.output.bytes).1)
    ((Sink.fresh none).write Block.header.write.bytes).1).written

theorem writtenAfter_eq (calls : List Call) :
    writtenAfter calls = Block.header.write.bytes ++ calls.flatMap fun call => call.output.bytes := by
  have hstep (written : Bytes) :
      (calls.foldl (fun sink call => (sink.write call.output.bytes).1)
        (⟨none, written⟩ : Sink)).written =
          written ++ calls.flatMap fun call => call.output.bytes := by
    induction calls generalizing written with
    | nil => exact (List.append_nil _).symm
    | cons call rest ih =>
      rw [List.foldl_cons, Sink.write_unlimited, ih, List.flatMap_cons, List.append_assoc]
  exact hstep _

theorem writtenAfter_append (before after : List Call) :
    writtenAfter (before ++ after) =
      writtenAfter before ++ after.flatMap fun call => call.output.bytes := by
  rw [writtenAfter_eq, writtenAfter_eq, List.flatMap_append, List.append_assoc]

section

variable {calls before : List Call}

theorem writtenAfter_of_accepted (h : ∀ call ∈ calls, call.accepted = true) :
    writtenAfter calls = bytesOf (calls.flatMap Call.blocks) := by
  rw [writtenAfter_eq, bytesOf, List.flatMap_cons, List.flatMap_assoc]
  exact congrArg _ (List.flatMap_congr fun call hcall => Call.bytes_of_accepted (h call hcall))

theorem writable_of_accepted (h : ∀ call ∈ calls, call.accepted = true) :
    ∀ block ∈ calls.flatMap Call.blocks, block.Writable := by
  intro block hblock
  obtain ⟨call, hcall, hmem⟩ := List.mem_flatMap.mp hblock
  exact (Call.accepted_iff call).mp (h call hcall) block hmem

/-- After calls that were accepted, the payload reads back as their blocks. -/
theorem exists_decode_writtenAfter (h : ∀ call ∈ calls, call.accepted = true)
    (hagree : AgreeingAfter [] (calls.flatMap Call.blocks)) (provenance : String) :
    ∃ dumps, decode (writtenAfter calls) provenance = .ok dumps ∧
      Holds (.header :: calls.flatMap Call.blocks) dumps := by
  obtain ⟨dumps, hread, hholds⟩ := exists_read_bytesOf (writable_of_accepted h) hagree
  rw [writtenAfter_of_accepted h]
  exact ⟨dumps, decode_eq_ok_iff_read.mpr hread, hholds⟩

/-! ## The first refused call -/

variable {call : Call} {done : List Block} {block : Block}

theorem writtenAfter_stopsAt (hbefore : ∀ call ∈ before, call.accepted = true)
    (hcall : call.StopsAt done block) (after : List Call) :
    writtenAfter (before ++ call :: after) =
      bytesOf (before.flatMap Call.blocks ++ done) ++
        (block.write.bytes ++ after.flatMap fun call => call.output.bytes) := by
  rw [writtenAfter_append, writtenAfter_of_accepted hbefore, List.flatMap_cons, hcall.bytes,
    bytesOf, bytesOf, ← List.cons_append, List.flatMap_append, List.append_assoc, List.append_assoc]

theorem writable_of_stopsAt (hbefore : ∀ call ∈ before, call.accepted = true)
    (hcall : call.StopsAt done block) :
    ∀ earlier ∈ before.flatMap Call.blocks ++ done, earlier.Writable :=
  List.forall_mem_append.mpr ⟨writable_of_accepted hbefore, hcall.2.1⟩

theorem AgreeingAfter.of_stopsAt {after : List Call}
    (hagree : AgreeingAfter [] ((before ++ call :: after).flatMap Call.blocks))
    (hcall : call.StopsAt done block) : AgreeingAfter [] (before.flatMap Call.blocks ++ done) := by
  obtain ⟨⟨rest, hblocks⟩, -⟩ := hcall
  rw [List.flatMap_append, List.flatMap_cons, hblocks, List.append_assoc, ← List.append_assoc]
    at hagree
  exact hagree.left

/-- Right after the call, the block that does not fit is truncated. -/
theorem decode_writtenAfter_stopsAt (hbefore : ∀ call ∈ before, call.accepted = true)
    (hcall : call.StopsAt done block)
    (hagree : AgreeingAfter [] (before.flatMap Call.blocks ++ done)) (provenance : String) :
    decode (writtenAfter (before ++ [call])) provenance =
      .error ⟨provenance, (bytesOf (before.flatMap Call.blocks ++ done)).length,
        .truncated block.kind⟩ := by
  rw [writtenAfter_stopsAt hbefore hcall, List.flatMap_nil, List.append_nil, decode_eq_error_iff]
  exact ⟨read_bytesOf_append (writable_of_stopsAt hbefore hcall) hagree hcall.2.2, rfl⟩

end

/-- No fault is found in a part that is accepted. -/
theorem le_offset_of_read_take {bytes : Bytes} {place offset : Nat} {dumps : List Dump}
    {fault : Block.Fault} (htake : read (bytes.take place) = .ok dumps)
    (h : read bytes = .error (offset, fault)) : place ≤ offset := by
  by_contra hlt
  obtain ⟨-, -, hfails⟩ := read_take_of_error h
  by_cases hplace : place ≤ bytes.length
  · obtain ⟨other, hother⟩ := hfails place (Nat.not_le.mp hlt) hplace
    rw [htake] at hother
    cases hother
  · rw [List.take_of_length_le (Nat.le_of_not_le hplace), h] at htake
    cases htake

/-- If the records of each session agree, then the payload can be read after every call, and gives
what the calls were for that were accepted, exactly if all of them are accepted. The first call that
is refused cuts the payload off inside its first block that does not fit. What is before that block
is kept, and no fault is found there later. -/
theorem writtenAfter_read (calls : List Call)
    (hagree : AgreeingAfter [] (calls.flatMap Call.blocks)) (provenance : String) :
    ((∀ part, part <+: calls → ∃ dumps, decode (writtenAfter part) provenance = .ok dumps ∧
        Holds (.header :: (part.filter Call.accepted).flatMap Call.blocks) dumps) ↔
      ∀ call ∈ calls, call.accepted = true) ∧
    ∀ before call after, calls = before ++ call :: after →
      (∀ earlier ∈ before, earlier.accepted = true) → call.accepted = false →
      ∃ done block, call.StopsAt done block ∧
        let held := before.flatMap Call.blocks ++ done
        decode (writtenAfter (before ++ [call])) provenance =
          .error ⟨provenance, (bytesOf held).length, .truncated block.kind⟩ ∧
        (∃ dumps, decode ((writtenAfter calls).take (bytesOf held).length) provenance = .ok dumps ∧
          Holds (.header :: held) dumps) ∧
        ∀ malformed, decode (writtenAfter calls) provenance = .error malformed →
          (bytesOf held).length ≤ malformed.offset := by
  refine ⟨⟨fun hread => ?_, fun haccepted => ?_⟩, ?_⟩
  · by_contra hsome
    obtain ⟨before, call, after, rfl, hbefore, hcall⟩ := exists_first_not hsome
    obtain ⟨done, block, hstops⟩ := Call.exists_stopsAt (Bool.eq_false_of_not_eq_true hcall)
    have hpart : before ++ [call] <+: before ++ call :: after := ⟨after, List.append_assoc ..⟩
    obtain ⟨dumps, hok, -⟩ := hread _ hpart
    rw [decode_writtenAfter_stopsAt hbefore hstops (hagree.of_stopsAt hstops)] at hok
    cases hok
  · rintro part ⟨after, rfl⟩
    have hpart := (List.forall_mem_append.mp haccepted).1
    rw [List.flatMap_append] at hagree
    rw [List.filter_eq_self.mpr hpart]
    exact exists_decode_writtenAfter hpart hagree.left provenance
  · rintro before call after rfl hbefore hcall
    obtain ⟨done, block, hstops⟩ := Call.exists_stopsAt hcall
    have hheld := hagree.of_stopsAt hstops
    obtain ⟨dumps, hread, hholds⟩ := exists_read_bytesOf (writable_of_stopsAt hbefore hstops) hheld
    refine ⟨done, block, hstops, ?_⟩
    intro held
    have htake : read ((writtenAfter (before ++ call :: after)).take (bytesOf held).length) =
        .ok dumps := by
      rw [writtenAfter_stopsAt hbefore hstops, List.take_left, hread]
    refine ⟨decode_writtenAfter_stopsAt hbefore hstops hheld provenance,
      ⟨dumps, decode_eq_ok_iff_read.mpr htake, hholds⟩, ?_⟩
    intro malformed hmalformed
    exact le_offset_of_read_take htake (decode_eq_error_iff.mp hmalformed).1

/-- A name that takes 65536 bytes. -/
def longName : String := String.ofList (List.replicate 65536 'a')

theorem not_fits_longName : ¬ Block.Fits longName := by
  have hlength (n : Nat) : (Text.ModifiedUtf8.encode (List.replicate n 'a')).length = n := by
    rw [Text.ModifiedUtf8.encode, List.length_flatMap, List.map_replicate, List.sum_replicate]
    exact Nat.mul_one n
  have hlong : longName.toList = List.replicate 65536 'a' := String.toList_ofList
  intro hfits
  rw [Block.Fits, hlong, hlength 65536] at hfits
  omega

/-- A session and a record, and then a dump with a class whose name is too long. -/
theorem writtenAfter_read_dump :
    let before : List Call := [.session ⟨"s", 1, 2⟩, .record ⟨⟨1⟩, ⟨"A", [true, false]⟩⟩]
    let call : Call := .dump ⟨⟨"t", 3, 4⟩,
      ⟨⟨[(⟨1⟩, ⟨"A", [true]⟩), (⟨2⟩, ⟨longName, [true]⟩)], by decide⟩⟩⟩
    (∀ part, part <+: before → ∃ dumps, decode (writtenAfter part) "file" = .ok dumps) ∧
      ∃ offset kind, decode (writtenAfter (before ++ [call])) "file" =
        .error ⟨"file", offset, .truncated kind⟩ := by
  intro before call
  have hbefore : ∀ earlier ∈ before, earlier.accepted = true := by decide
  have hcall : call.accepted = false := by
    rw [Bool.eq_false_iff, Ne, Call.accepted_iff]
    intro hwritable
    have hmem : Block.record ⟨⟨2⟩, ⟨longName, [true]⟩⟩ ∈ call.blocks := by
      simp [call, Call.blocks, blocksOf, ProbeStore.records, ProbeStore.pruned, Hits.any]
    exact not_fits_longName (hwritable _ hmem).1
  constructor
  · intro part hpart
    obtain ⟨hread, -⟩ := writtenAfter_read before (by decide) "file"
    obtain ⟨dumps, hdumps, -⟩ := hread.mpr hbefore part hpart
    exact ⟨dumps, hdumps⟩
  · obtain ⟨-, hrefused⟩ := writtenAfter_read (before ++ [call]) (by decide) "file"
    obtain ⟨done, block, -, hcut, -⟩ := hrefused before call [] rfl hbefore hcall
    exact ⟨_, _, hcut⟩

/-- A session with a name that is too long is refused, and then the payload is truncated. -/
theorem writtenAfter_longName :
    let call : Call := .session ⟨longName, 0, 0⟩
    call.accepted = false ∧
      decode (writtenAfter [call]) "file" = .error ⟨"file", 5, .truncated .session⟩ := by
  intro call
  have hstops : call.StopsAt [] (.session ⟨longName, 0, 0⟩) :=
    ⟨⟨[], rfl⟩, List.forall_mem_nil _, not_fits_longName⟩
  constructor
  · rw [Bool.eq_false_iff, Ne, Call.accepted_iff]
    exact fun hwritable => not_fits_longName (hwritable _ List.mem_cons_self)
  · exact decode_writtenAfter_stopsAt (List.forall_mem_nil _) hstops trivial "file"

end Payload

end TestCoverage

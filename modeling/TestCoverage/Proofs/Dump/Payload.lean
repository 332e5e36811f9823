import Mathlib
import TestCoverage.Proofs.Dump.Reading

/-!
# Payloads read back

A payload is written as its blocks one after the other (`write_bytes`), so what is written
spells them (`spells_flatMap_write`). The records of a store, put one after the other into an
empty store, are that store again (`foldlM_put`). So a payload that is written reads back,
without the records that were left out (`encode_round_trip`).
-/

namespace TestCoverage

def ProbeStore.pruned (store : ProbeStore) : ProbeStore :=
  ⟨⟨store.byId.entries.filter fun entry => entry.2.any, store.byId.sorted.filter _⟩⟩

/-- The dump without the records that have no hit. -/
def Dump.pruned (dump : Dump) : Dump := ⟨dump.session, dump.store.pruned⟩

namespace ProbeStore

theorem records_pruned (store : ProbeStore) :
    store.pruned.records = store.records.filter (·.hits.any) := by
  rw [records, records, pruned, List.filter_map]
  rfl

theorem foldlM_put {entries : List (ClassId × Hits)} {start store : ProbeStore}
    (h : store.byId.entries = start.byId.entries ++ entries) :
    (entries.map fun (id, hits) => (⟨id, hits⟩ : ProbeRecord)).foldlM put start = .ok store := by
  induction entries generalizing start with
  | nil =>
    have hmap : start.byId = store.byId := OrderedMap.ext_entries (by simpa using h.symm)
    have hstore : start = store := congrArg ProbeStore.mk hmap
    rw [hstore]
    rfl
  | cons entry rest ih =>
    have hsorted := store.byId.sorted
    rw [h, List.pairwise_append] at hsorted
    have hlt (before : ClassId × Hits) (hbefore : before ∈ start.byId.entries) :
        before.1 < entry.1 :=
      hsorted.2.2 before hbefore entry List.mem_cons_self
    have hnone : start.find? entry.1 = none :=
      OrderedMap.findEntry_eq_none fun before hbefore heq =>
        KeyOrder.irrefl entry.1 (heq ▸ hlt before hbefore)
    have hput : start.put ⟨entry.1, entry.2⟩ = .ok ⟨start.byId.set entry.1 entry.2⟩ := by
      rw [put, hnone]
    rw [List.map_cons, List.foldlM_cons, hput]
    refine ih ?_
    change _ = OrderedMap.insertEntry entry.1 entry.2 start.byId.entries ++ rest
    rw [OrderedMap.insertEntry_of_forall_lt entry.2 hlt, List.append_assoc]
    exact h

end ProbeStore

namespace Payload

def blocksOf (dump : Dump) : List Block :=
  .session dump.session :: dump.store.pruned.records.map .record

def blocks (dumps : List Dump) : List Block := .header :: dumps.flatMap blocksOf

/-- Everything in the dump that is written fits. -/
def Fits (dump : Dump) : Prop :=
  Block.Fits dump.session.id ∧
    ∀ record ∈ dump.store.records, record.hits.any = true → (Block.record record).Writable

theorem forall_mem_blocksOf (dump : Dump) :
    (∀ block ∈ blocksOf dump, block.Writable) ↔ Fits dump := by
  rw [blocksOf, List.forall_mem_cons, List.forall_mem_map, ProbeStore.records_pruned]
  simp only [List.mem_filter, and_imp]
  exact Iff.rfl

theorem forall_mem_blocks (dumps : List Dump) :
    (∀ block ∈ blocks dumps, block.Writable) ↔ ∀ dump ∈ dumps, Fits dump := by
  simp only [blocks, List.forall_mem_cons, List.mem_flatMap, forall_exists_index, and_imp,
    ← forall_mem_blocksOf]
  exact ⟨fun h dump hdump block => h.2 block dump hdump,
    fun h => ⟨trivial, fun block dump hdump => h dump hdump block⟩⟩

/-! ## Writing -/

theorem foldl_writeRecord (records : List ProbeRecord) (start : Block.Output) :
    records.foldl (fun output record => output ++ writeRecord record) start =
      ((records.filter (·.hits.any)).map Block.record).foldl
        (fun output block => output ++ block.write) start := by
  induction records generalizing start with
  | nil => rfl
  | cons record rest ih =>
    rw [List.foldl_cons, ih, writeRecord, List.filter_cons]
    split
    · rfl
    · rw [Block.Output.append_ofBytes_nil]

/-- A dump is written as its blocks. -/
theorem writeDump_eq (dump : Dump) : writeDump dump = Block.writeAll (blocksOf dump) := by
  rw [writeDump, foldl_writeRecord, blocksOf, ProbeStore.records_pruned]
  rfl

theorem writeDump_rejection_eq_none_iff (dump : Dump) :
    (writeDump dump).rejection = none ↔ Fits dump := by
  rw [writeDump_eq, Block.writeAll_rejection_eq_none_iff, forall_mem_blocksOf]

theorem writeDump_bytes {dump : Dump} (h : (writeDump dump).rejection = none) :
    (writeDump dump).bytes = (blocksOf dump).flatMap fun block => block.write.bytes := by
  rw [writeDump_eq] at h ⊢
  exact Block.bytes_writeAll ((Block.writeAll_rejection_eq_none_iff _).mp h)

theorem write_rejection_eq_none_iff (dumps : List Dump) :
    (write dumps).rejection = none ↔ ∀ dump ∈ dumps, Fits dump := by
  unfold write
  rw [Block.Output.rejection_foldl_eq_none_iff, Block.write_rejection_eq_none_iff]
  simp only [writeDump_rejection_eq_none_iff]
  exact and_iff_right trivial

theorem write_bytes {dumps : List Dump} (h : (write dumps).rejection = none) :
    (write dumps).bytes = (blocks dumps).flatMap fun block => block.write.bytes := by
  unfold write at h ⊢
  obtain ⟨hheader, hdumps⟩ := (Block.Output.rejection_foldl_eq_none_iff ..).mp h
  rw [Block.Output.bytes_foldl _ hheader hdumps, blocks, List.flatMap_cons, List.flatMap_assoc]
  exact congrArg _ (List.flatMap_congr fun dump hdump => writeDump_bytes (hdumps dump hdump))

/-! ## Reading -/

theorem spells_flatMap_write {blocks : List Block} (h : ∀ block ∈ blocks, block.Writable) :
    Spells (blocks.flatMap fun block => block.write.bytes) blocks := by
  induction blocks with
  | nil => exact .nil
  | cons block rest ih =>
    obtain ⟨hblock, hrest⟩ := List.forall_mem_cons.mp h
    exact .cons (Block.spells_write hblock) (ih hrest)

theorem foldlM_add_records (records : List ProbeRecord) (dump : Dump) (others : List Dump) :
    (records.map Block.record).foldlM add (dump :: others) =
      (records.foldlM ProbeStore.put dump.store).map fun store =>
        ⟨dump.session, store⟩ :: others := by
  induction records generalizing dump with
  | nil => rfl
  | cons record rest ih =>
    rw [List.map_cons, List.foldlM_cons, List.foldlM_cons, add]
    cases hput : dump.store.put record with
    | error fault => rfl
    | ok store => exact ih ⟨dump.session, store⟩

theorem foldlM_add_blocksOf (dump : Dump) (others : List Dump) :
    (blocksOf dump).foldlM add others = .ok (dump.pruned :: others) := by
  have hput : dump.store.pruned.records.foldlM ProbeStore.put ProbeStore.empty =
      .ok dump.store.pruned :=
    ProbeStore.foldlM_put rfl
  rw [blocksOf, List.foldlM_cons]
  change (dump.store.pruned.records.map Block.record).foldlM add
    (Dump.ofSession dump.session :: others) = _
  rw [foldlM_add_records]
  change ((dump.store.pruned.records.foldlM ProbeStore.put ProbeStore.empty).map _ : Except _ _) = _
  rw [hput]
  rfl

theorem foldlM_add_blocks (dumps others : List Dump) :
    (dumps.flatMap blocksOf).foldlM add others =
      .ok ((dumps.map Dump.pruned).reverse ++ others) := by
  induction dumps generalizing others with
  | nil => rfl
  | cons dump rest ih =>
    rw [List.flatMap_cons, List.foldlM_append, foldlM_add_blocksOf]
    refine (ih _).trans ?_
    simp

/-! ## Whole payloads -/

theorem encode_eq_ok_iff (dumps : List Dump) (bytes : Bytes) :
    encode dumps = .ok bytes ↔ (write dumps).rejection = none ∧ (write dumps).bytes = bytes := by
  unfold encode
  dsimp only
  split
  · next reason h => simp [h]
  · next h => simp [h]

theorem decode_write {dumps : List Dump} (h : (write dumps).rejection = none)
    (provenance : String) :
    decode (write dumps).bytes provenance = .ok (dumps.map Dump.pruned) := by
  have hblocks := (forall_mem_blocks dumps).mpr ((write_rejection_eq_none_iff dumps).mp h)
  have hadd : (blocks dumps).foldlM add [] = .ok (dumps.map Dump.pruned).reverse := by
    rw [blocks, List.foldlM_cons]
    refine (foldlM_add_blocks dumps []).trans ?_
    rw [List.append_nil]
  have hspells := spells_flatMap_write hblocks
  rw [← write_bytes h] at hspells
  refine decode_eq_ok_iff_read.mpr (read_eq_ok_iff.mpr ⟨blocks dumps, hspells, ?_, hadd⟩)
  rintro _ ⟨⟩
  rfl

/-- A payload is written if every name of a session and every name of a class with a hit takes at
most 65535 bytes, and what is written reads back as the same dumps without the records that have
no hit. -/
theorem encode_round_trip (dumps : List Dump)
    (hprobes : ∀ dump ∈ dumps, ∀ record ∈ dump.store.records,
      record.hits.probes.length < UInt32.size) :
    ((∃ bytes, encode dumps = .ok bytes) ↔
      ∀ dump ∈ dumps,
        (Text.ModifiedUtf8.encode dump.session.id.toList).length ≤ 65535 ∧
        ∀ record ∈ dump.store.records, record.hits.any = true →
          (Text.ModifiedUtf8.encode record.hits.className.toList).length ≤ 65535) ∧
    ∀ bytes provenance, encode dumps = .ok bytes →
      decode bytes provenance = .ok (dumps.map Dump.pruned) := by
  constructor
  · have hok : (∃ bytes, encode dumps = .ok bytes) ↔ (write dumps).rejection = none := by
      simp [encode_eq_ok_iff]
    rw [hok, write_rejection_eq_none_iff]
    refine forall₂_congr fun dump hdump => and_congr_right fun _ => ?_
    refine forall₂_congr fun record hrecord => imp_congr_right fun _ => ?_
    exact and_iff_left (hprobes dump hdump record hrecord)
  · intro bytes provenance h
    obtain ⟨hnone, rfl⟩ := (encode_eq_ok_iff dumps bytes).mp h
    exact decode_write hnone provenance

/-- One dump with a class that was hit and one that was not. -/
theorem encode_round_trip_unhit_class :
    ∃ bytes,
      encode [⟨⟨"run", -1, 1⟩, ⟨⟨[(⟨1⟩, ⟨"A", [true, false, true]⟩), (⟨2⟩, ⟨"B", [false]⟩)],
        by decide⟩⟩⟩] = .ok bytes ∧
      decode bytes "file" =
        .ok [⟨⟨"run", -1, 1⟩, ⟨⟨[(⟨1⟩, ⟨"A", [true, false, true]⟩)], by decide⟩⟩⟩] := by
  obtain ⟨hok, hread⟩ := encode_round_trip
    [⟨⟨"run", -1, 1⟩, ⟨⟨[(⟨1⟩, ⟨"A", [true, false, true]⟩), (⟨2⟩, ⟨"B", [false]⟩)],
      by decide⟩⟩⟩] (by decide)
  obtain ⟨bytes, hbytes⟩ := hok.mpr (by decide)
  exact ⟨bytes, hbytes, hread bytes "file" hbytes⟩

end Payload

end TestCoverage

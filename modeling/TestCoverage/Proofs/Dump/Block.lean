import Mathlib
import TestCoverage.Dump.Block
import TestCoverage.Proofs.Bytes.Cursor
import TestCoverage.Proofs.Text.ModifiedUtf8

/-!
# Blocks read back

* `reads_groups`, `bits_writeBits`: the number of probes and the probes read back.
* `write_rejection_eq_none_iff`: a block is written if its text and its probes fit.
* `reads_write`: a block that is written reads back.
-/

namespace TestCoverage

namespace Block

/-! ## Numbers and texts -/

theorem reads_take (kind : Kind) (bytes : Bytes) : Reads (take kind bytes.length) bytes bytes := by
  intro offset rest
  rw [take, Cursor.take?_append]

theorem reads_number (kind : Kind) {width n : Nat} (h : n < 256 ^ width) :
    Reads (number kind width) (Bytes.bigEndian width n) n := by
  have htake := reads_take kind (Bytes.bigEndian width n)
  rw [Bytes.length_bigEndian] at htake
  refine htake.last ?_
  rw [Bytes.ofBigEndian_bigEndian h]
  exact Reads.pure n

/-- A text whose length can be written in two bytes. -/
def Fits (text : String) : Prop := (Text.ModifiedUtf8.encode text.toList).length ≤ 65535

theorem writeText_rejection_eq_none_iff (text : String) :
    (writeText text).rejection = none ↔ Fits text := by
  unfold writeText Fits
  dsimp only
  split
  · next h => simp [h]
  · next h => simp [Output.ofBytes, Nat.not_lt.mp h]

theorem reads_writeText (kind : Kind) {s : String} (h : Fits s) :
    Reads (text kind) (writeText s).bytes s := by
  unfold Fits at h
  have hbytes : (writeText s).bytes =
      Bytes.bigEndian 2 (Text.ModifiedUtf8.encode s.toList).length ++
        Text.ModifiedUtf8.encode s.toList := by
    simp [writeText, Output.ofBytes, Nat.not_lt.mpr h]
  have hlength : Reads (number kind 2)
      (Bytes.bigEndian 2 (Text.ModifiedUtf8.encode s.toList).length)
      (Text.ModifiedUtf8.encode s.toList).length :=
    reads_number kind (by omega)
  have htext := reads_take kind (Text.ModifiedUtf8.encode s.toList)
  have hdecode := Text.ModifiedUtf8.decode_encode s
  generalize Text.ModifiedUtf8.encode s.toList = bytes at h hbytes hlength htext hdecode
  rw [hbytes]
  unfold text
  refine hlength.bind (htext.last ?_)
  rw [hdecode]
  exact Reads.pure s

/-! ## Probes -/

theorem reads_group {n : Nat} (h : n < 256) : Reads (number .record 1) [UInt8.ofNat n] n :=
  reads_number .record (by simpa using h)

theorem reads_last_group {more shift n : Nat} (hend : n < 0x80)
    (hfifth : ¬ (shift = 28 ∧ 0x10 ≤ n % 0x80)) (value : Nat) :
    Reads (groups (more + 1) shift value) [UInt8.ofNat n] (value + n <<< shift) := by
  have hlow : n % 0x80 = n := Nat.mod_eq_of_lt hend
  rw [groups]
  refine (reads_group (n := n) (by omega)).last ?_
  rw [if_neg hfifth, hlow]
  simp only [if_pos hend]
  exact Reads.pure _

/-- A number of at most four bits in the fifth group and seven in each other one reads back. -/
theorem reads_groups {more shift n : Nat} (hshift : shift + 7 * more = 28)
    (hn : n < 2 ^ (4 + 7 * more)) (value : Nat) :
    Reads (groups (more + 1) shift value) (writeGroups more n) (value + n <<< shift) := by
  induction more generalizing shift n value with
  | zero =>
    have hlt : n < 16 := by simpa using hn
    have hlow : n % 0x80 = n := by omega
    rw [writeGroups, hlow]
    exact reads_last_group (by omega) (by omega) value
  | succ more ih =>
    have hfifth (k : Nat) : ¬ (shift = 28 ∧ 0x10 ≤ k % 0x80) := by omega
    rw [writeGroups]
    split
    · next hend => exact reads_last_group hend (hfifth n) value
    · next hmore =>
      have hhigh : n / 0x80 < 2 ^ (4 + 7 * more) := by
        rw [Nat.div_lt_iff_lt_mul (by decide)]
        simpa only [Nat.mul_add, Nat.mul_one, Nat.pow_add, Nat.mul_assoc] using hn
      have hlow : (0x80 + n % 0x80) % 0x80 = n % 0x80 := by omega
      have hvalue : value + (n % 0x80) <<< shift + (n / 0x80) <<< (shift + 7) =
          value + n <<< shift := by
        have hsplit := Nat.div_add_mod n 0x80
        simp only [Nat.shiftLeft_eq, Nat.pow_add]
        nth_rewrite 3 [← hsplit]
        ring
      have hnext : shift + 7 + 7 * more = 28 := by omega
      have hrest := ih hnext hhigh (value + (n % 0x80) <<< shift)
      have hgroup : Reads (number .record 1) [UInt8.ofNat (0x80 + n % 0x80)] (0x80 + n % 0x80) :=
        reads_group (by omega)
      -- the high bit of the group says that another one follows
      have hset : ¬ 0x80 + n % 0x80 < 0x80 := by omega
      rw [hvalue] at hrest
      rw [groups]
      refine hgroup.bind ?_
      rw [if_neg (hfifth _), hlow]
      simp only [if_neg hset]
      exact hrest

theorem testBit_ofBits (bits : List Bool) (i : Nat) :
    (ofBits bits).testBit i = bits[i]?.getD false := by
  induction bits generalizing i with
  | nil => simp [ofBits]
  | cons bit rest ih =>
    have hhalf : (bit.toNat + 2 * ofBits rest) / 2 = ofBits rest := by
      cases bit <;> simp; omega
    cases i with
    | zero => cases bit <;> simp [ofBits]
    | succ i =>
      rw [ofBits, Nat.testBit_add_one, hhalf, ih]
      simp

theorem ofBits_lt (bits : List Bool) : ofBits bits < 2 ^ bits.length := by
  induction bits with
  | nil => decide
  | cons bit rest ih =>
    have hbit := bit.toNat_le
    rw [ofBits, List.length_cons, Nat.pow_succ]
    omega

/-- The bits of a byte are those it was made of, with zeros above. -/
theorem bits_ofBits {bits : List Bool} (h : bits.length ≤ 8) :
    ((List.range 8).map fun i => (UInt8.ofNat (ofBits bits)).toNat.testBit i) =
      bits ++ List.replicate (8 - bits.length) false := by
  have hlt : ofBits bits < 256 :=
    Nat.lt_of_lt_of_le (ofBits_lt bits) (Nat.pow_le_pow_right (by decide) h)
  rw [Text.Utf8.toNat_byte hlt]
  refine List.ext_getElem (by simp; omega) ?_
  intro i hi hi'
  rw [List.getElem_map, List.getElem_range, testBit_ofBits, List.getElem_append]
  split
  · next hin => simp [hin]
  · next hout => simp [List.getElem?_eq_none (Nat.not_lt.mp hout)]

theorem flatMap_writeBits {count : Nat} {bits : List Bool} (h : bits.length ≤ 8 * count) :
    ((writeBits count bits).flatMap fun b => (List.range 8).map fun i => b.toNat.testBit i) =
      bits ++ List.replicate (8 * count - bits.length) false := by
  induction count generalizing bits with
  | zero =>
    have hnil : bits = [] := List.length_eq_zero_iff.mp (by omega)
    rw [hnil]
    rfl
  | succ count ih =>
    have hrest : (bits.drop 8).length ≤ 8 * count := by
      rw [List.length_drop]
      omega
    rw [writeBits, List.flatMap_cons, bits_ofBits (by simp), ih hrest]
    -- a full byte is not filled up, and after one that is not full nothing follows
    by_cases hlong : 8 ≤ bits.length
    · have htake : 8 - (bits.take 8).length = 0 := by simp; omega
      have hdrop : 8 * count - (bits.drop 8).length = 8 * (count + 1) - bits.length := by
        rw [List.length_drop]
        omega
      rw [htake, hdrop, List.replicate_zero, List.append_nil, ← List.append_assoc,
        List.take_append_drop]
    · have htake : bits.take 8 = bits := List.take_of_length_le (by omega)
      have hdrop : bits.drop 8 = [] := List.drop_of_length_le (by omega)
      have hpad : 8 - bits.length + (8 * count - 0) = 8 * (count + 1) - bits.length := by omega
      rw [htake, hdrop, List.nil_append, List.length_nil, List.append_assoc,
        List.replicate_append_replicate, hpad]

theorem length_writeBits (count : Nat) (bits : List Bool) :
    (writeBits count bits).length = count := by
  induction count generalizing bits with
  | zero => rfl
  | succ count ih => rw [writeBits, List.length_cons, ih]

/-- The bits read back; the last byte may hold more bits than there are. -/
theorem bits_writeBits (list : List Bool) :
    bits list.length (writeBits ((list.length + 7) / 8) list) = list := by
  rw [bits, flatMap_writeBits (by omega), List.take_left]

theorem writeProbes_rejection_eq_none_iff (list : List Bool) :
    (writeProbes list).rejection = none ↔ list.length < UInt32.size := by
  unfold writeProbes
  split
  · next h => simp [h]
  · next h => simp [Output.ofBytes, Nat.not_le.mp h]

theorem reads_writeProbes {list : List Bool} (h : list.length < UInt32.size) :
    Reads probes (writeProbes list).bytes list := by
  have hbytes : (writeProbes list).bytes =
      writeGroups 4 list.length ++ writeBits ((list.length + 7) / 8) list := by
    simp [writeProbes, Output.ofBytes, Nat.not_le.mpr h]
  have hcount : Reads (groups 5 0 0) (writeGroups 4 list.length) list.length := by
    have hshift : 0 + 7 * 4 = 28 := rfl
    have hgroups := reads_groups hshift h 0
    simpa using hgroups
  have htake := reads_take .record (writeBits ((list.length + 7) / 8) list)
  rw [length_writeBits] at htake
  rw [hbytes, probes]
  refine hcount.bind (htake.last ?_)
  rw [bits_writeBits]
  exact Reads.pure list

/-! ## Blocks -/

namespace Output

/-- Two outputs are written after each other if both are written. -/
theorem rejection_append_eq_none_iff (first second : Output) :
    (first ++ second).rejection = none ↔ first.rejection = none ∧ second.rejection = none := by
  change (append first second).rejection = none ↔ _
  rw [append]
  split
  · next reason h => simp [h]
  · next h => simp [h]

theorem bytes_append {first : Output} (h : first.rejection = none) (second : Output) :
    (first ++ second).bytes = first.bytes ++ second.bytes := by
  change (append first second).bytes = _
  rw [append, h]

/-- Nothing follows where writing has stopped. -/
theorem append_of_rejected {first : Output} (h : first.rejection ≠ none) (second : Output) :
    first ++ second = first := by
  change append first second = first
  rw [append]
  split
  · rfl
  · next hnone => exact absurd hnone h

theorem append_ofBytes_nil (output : Output) : output ++ ofBytes [] = output := by
  by_cases h : output.rejection = none
  · obtain ⟨bytes, rejection⟩ := output
    subst h
    exact congrArg (Output.mk · none) (List.append_nil bytes)
  · exact append_of_rejected h _

variable {α : Type} (f : α → Output)

theorem foldl_of_rejected (items : List α) {start : Output}
    (h : start.rejection ≠ none) :
    items.foldl (fun output item => output ++ f item) start = start := by
  induction items with
  | nil => rfl
  | cons item rest ih => rw [List.foldl_cons, append_of_rejected h, ih]

theorem rejection_foldl_eq_none_iff (items : List α) (start : Output) :
    (items.foldl (fun output item => output ++ f item) start).rejection = none ↔
      start.rejection = none ∧ ∀ item ∈ items, (f item).rejection = none := by
  induction items generalizing start with
  | nil => simp
  | cons item rest ih =>
    rw [List.foldl_cons, ih, rejection_append_eq_none_iff, List.forall_mem_cons, and_assoc]

theorem bytes_foldl {items : List α} {start : Output} (hstart : start.rejection = none)
    (hitems : ∀ item ∈ items, (f item).rejection = none) :
    (items.foldl (fun output item => output ++ f item) start).bytes =
      start.bytes ++ items.flatMap fun item => (f item).bytes := by
  induction items generalizing start with
  | nil => simp
  | cons item rest ih =>
    obtain ⟨hitem, hrest⟩ := List.forall_mem_cons.mp hitems
    have hboth := (rejection_append_eq_none_iff start (f item)).mpr ⟨hstart, hitem⟩
    rw [List.foldl_cons, ih hboth hrest, bytes_append hstart, List.flatMap_cons, List.append_assoc]

end Output

/-- The texts of the block and its probes fit into their length fields. -/
def Writable : Block → Prop
  | .header => True
  | .session info => Fits info.id
  | .record data => Fits data.hits.className ∧ data.hits.probes.length < UInt32.size

theorem write_rejection_eq_none_iff (block : Block) :
    block.write.rejection = none ↔ block.Writable := by
  cases block with
  | header => simp [write, Writable, Output.ofBytes]
  | session info =>
    simp [write, Writable, Output.rejection_append_eq_none_iff, Output.ofBytes,
      writeText_rejection_eq_none_iff]
  | record data =>
    simp [write, Writable, Output.rejection_append_eq_none_iff, Output.ofBytes,
      writeText_rejection_eq_none_iff, writeProbes_rejection_eq_none_iff]

/-- Blocks one after the other. -/
def writeAll (blocks : List Block) : Output :=
  blocks.foldl (fun output block => output ++ block.write) (.ofBytes [])

theorem writeAll_rejection_eq_none_iff (blocks : List Block) :
    (writeAll blocks).rejection = none ↔ ∀ block ∈ blocks, block.Writable := by
  rw [writeAll, Output.rejection_foldl_eq_none_iff]
  simp only [write_rejection_eq_none_iff]
  exact and_iff_right rfl

theorem bytes_writeAll {blocks : List Block} (h : ∀ block ∈ blocks, block.Writable) :
    (writeAll blocks).bytes = blocks.flatMap fun block => block.write.bytes := by
  have hwritten : ∀ block ∈ blocks, block.write.rejection = none :=
    fun block hblock => (write_rejection_eq_none_iff block).mpr (h block hblock)
  have hnothing : (Output.ofBytes []).rejection = none := rfl
  exact Output.bytes_foldl write hnothing hwritten

/-- Writing stops inside the first block that does not fit. -/
theorem bytes_writeAll_append {done : List Block} (hdone : ∀ block ∈ done, block.Writable)
    {block : Block} (hblock : ¬ block.Writable) (rest : List Block) :
    (writeAll (done ++ block :: rest)).bytes =
      (done.flatMap fun block => block.write.bytes) ++ block.write.bytes := by
  have hrejected : (writeAll done ++ block.write).rejection ≠ none := by
    rw [Ne, Output.rejection_append_eq_none_iff, write_rejection_eq_none_iff]
    exact fun hboth => hblock hboth.2
  have hstart := (writeAll_rejection_eq_none_iff done).mpr hdone
  unfold writeAll at hrejected hstart ⊢
  rw [List.foldl_append, List.foldl_cons, Output.foldl_of_rejected write rest hrejected,
    Output.bytes_append hstart]
  exact congrArg (· ++ _) (bytes_writeAll hdone)

theorem reads_header :
    Reads readHeader (Bytes.bigEndian 2 magic ++ Bytes.bigEndian 2 version) .header := by
  have hmagic : Reads (number .header 2) (Bytes.bigEndian 2 magic) magic :=
    reads_number .header (by decide)
  have hversion : Reads (number .header 2) (Bytes.bigEndian 2 version) version :=
    reads_number .header (by decide)
  unfold readHeader
  refine hmagic.bind ?_
  rw [if_neg (by decide)]
  refine hversion.last ?_
  rw [if_neg (by decide)]
  exact Reads.pure Block.header

theorem reads_int64 (kind : Kind) (n : Int64) :
    Reads (number kind 8) (Bytes.bigEndian 8 n.toUInt64.toNat) n.toUInt64.toNat :=
  reads_number kind n.toUInt64.toNat_lt

theorem reads_session {info : Session} (h : Fits info.id) :
    Reads readSession ((writeText info.id).bytes ++ (Bytes.bigEndian 8 info.start.toUInt64.toNat ++
      Bytes.bigEndian 8 info.dump.toUInt64.toNat)) (.session info) := by
  unfold readSession
  refine (reads_writeText .session h).bind ?_
  refine (reads_int64 .session info.start).bind ?_
  refine (reads_int64 .session info.dump).last ?_
  simp only [UInt64.ofNat_toNat]
  exact Reads.pure _

theorem reads_record {data : ProbeRecord} (hname : Fits data.hits.className)
    (hprobes : data.hits.probes.length < UInt32.size) :
    Reads readRecord (Bytes.bigEndian 8 data.id.bits.toNat ++
      ((writeText data.hits.className).bytes ++ (writeProbes data.hits.probes).bytes))
      (.record data) := by
  unfold readRecord
  refine (reads_number .record data.id.bits.toNat_lt).bind ?_
  refine (reads_writeText .record hname).bind ?_
  refine (reads_writeProbes hprobes).last ?_
  rw [UInt64.ofNat_toNat]
  exact Reads.pure _

theorem bytes_write_record {data : ProbeRecord} (h : Fits data.hits.className) :
    (Block.record data).write.bytes = Kind.record.byte :: (Bytes.bigEndian 8 data.id.bits.toNat ++
      ((writeText data.hits.className).bytes ++ (writeProbes data.hits.probes).bytes)) := by
  have htext := (writeText_rejection_eq_none_iff data.hits.className).mpr h
  simp [write, Output.bytes_append, Output.rejection_append_eq_none_iff, Output.ofBytes, htext]

theorem reads_write {block : Block} (h : block.Writable) :
    ∃ byte bytes, block.write.bytes = byte :: bytes ∧ Reads (read byte) bytes block := by
  cases block with
  | header => exact ⟨Kind.header.byte, _, rfl, reads_header⟩
  | session info =>
    have htext := (writeText_rejection_eq_none_iff info.id).mpr h
    refine ⟨Kind.session.byte, _, ?_, reads_session h⟩
    simp [write, Output.bytes_append, Output.rejection_append_eq_none_iff, Output.ofBytes, htext]
  | record data =>
    obtain ⟨hname, hprobes⟩ := h
    exact ⟨Kind.record.byte, _, bytes_write_record hname, reads_record hname hprobes⟩

end Block

end TestCoverage

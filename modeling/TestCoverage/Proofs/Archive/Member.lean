import Mathlib
import TestCoverage.Archive.Member
import TestCoverage.Proofs.Archive.Inflate

/-!
# Deflated members, and an archive that is its own member

A deflated member is a file with the data that is inflated, if that has the checksum that the
directory says (`Archive.member_eq_file`). Nothing relates this data to the size of the archive:
`Archive.selfContaining` is an archive whose only member is inflated to the archive
(`Archive.members_selfContaining`).

Blocks of stored bytes say what blocks to put into the data, and blocks that repeat what was
inflated just before put in the same once more. In turns they make the stream inflate to the header
of the member, then to the stream itself, and then to the directory.
-/

namespace TestCoverage.Archive

open Inflater

/-! ## Checksums -/

theorem foldlM_loop_eq {β : Type} (f : β → UInt8 → β) (bytes : Bytes) (steps position : Nat)
    (state : β) (h : bytes.length ≤ position + steps) :
    ByteArray.foldlM.loop (fun state b => (pure (f state b) : Id β)) ⟨⟨bytes⟩⟩ bytes.length
        (Nat.le_refl _) steps position state = (bytes.drop position).foldl f state := by
  induction steps generalizing position state with
  | zero =>
    have hend : bytes.length ≤ position := h
    rw [ByteArray.foldlM.loop, dif_neg (Nat.not_lt.mpr hend), List.drop_of_length_le hend]
    rfl
  | succ steps ih =>
    rw [ByteArray.foldlM.loop]
    by_cases hlt : position < bytes.length
    · rw [dif_pos hlt, List.drop_eq_getElem_cons hlt]
      exact ih (position + 1) (f state bytes[position]) (by omega)
    · rw [dif_neg hlt, List.drop_of_length_le (Nat.not_lt.mp hlt)]
      rfl

theorem crc32_eq (bytes : Bytes) : crc32 ⟨⟨bytes⟩⟩ = ~~~(bytes.foldl crcByte 0xFFFFFFFF) := by
  unfold crc32 ByteArray.foldl ByteArray.foldlM
  rw [dif_pos (Nat.le_refl _)]
  exact congrArg _ (foldlM_loop_eq crcByte bytes _ 0 _ (Nat.le_of_eq (Nat.zero_add _).symm))

/-- The checksum after one more byte, by the steps that the table stands for. -/
def crcShiftByte (state : UInt32) (b : UInt8) : UInt32 :=
  (state >>> 8) ^^^ crcShift 8 (UInt32.ofNat (state ^^^ b.toUInt32).toUInt8.toNat)

theorem crcByte_eq : crcByte = crcShiftByte := by
  funext state b
  have hget : crcTable.get (state ^^^ b.toUInt32).toUInt8.toFin =
      crcShift 8 (UInt32.ofNat (state ^^^ b.toUInt32).toUInt8.toNat) := by
    unfold crcTable
    rw [Vector.get_eq_getElem, Vector.getElem_ofFn]
    rfl
  unfold crcByte
  rw [hget]
  rfl

/-! ## Deflated members -/

theorem extract_eq (bytes : Bytes) (start stop : Nat) :
    (⟨⟨bytes⟩⟩ : ByteArray).extract start stop = ⟨⟨(bytes.drop start).take (stop - start)⟩⟩ := by
  apply ByteArray.ext
  rw [ByteArray.data_extract, List.extract_toArray]

/-- The kept bytes stand behind the header, with the name and the extra fields in it. -/
theorem keptBytes_eq {bytes : Bytes} {entry : Entry} {nameLength extraLength start : Nat}
    (hsignature : field ⟨⟨bytes⟩⟩ entry.headerStart 4 = some 0x04034B50)
    (hname : field ⟨⟨bytes⟩⟩ (entry.headerStart + 26) 2 = some nameLength)
    (hextra : field ⟨⟨bytes⟩⟩ (entry.headerStart + 28) 2 = some extraLength)
    (hstart : entry.headerStart + 30 + nameLength + extraLength = start)
    (hwhole : start + entry.compressedSize ≤ bytes.length) :
    keptBytes ⟨⟨bytes⟩⟩ entry = some ⟨⟨(bytes.drop start).take entry.compressedSize⟩⟩ := by
  have hkept : keptBytes ⟨⟨bytes⟩⟩ entry =
      some ((⟨⟨bytes⟩⟩ : ByteArray).extract start
        (min (start + entry.compressedSize) bytes.length)) := by
    rw [← hstart, keptBytes, hsignature, hname, hextra]
    rfl
  rw [hkept, extract_eq, Nat.min_eq_left hwhole, Nat.add_sub_cancel_left]

theorem member_eq_file {bound : Nat} {file kept data : ByteArray} {entry : Entry}
    (hreadable : ¬ (entry.encrypted || entry.enciphered)) (hmethod : entry.method = 8)
    (hname : ¬ isDirectoryName entry.name)
    (hsize : entry.size ≤ bound) (hkept : keptBytes file entry = some kept)
    (hdata : inflate bound kept = some data) (hchecksum : (crc32 data).toNat = entry.checksum) :
    member bound file entry = .file entry.name entry.size (some data) := by
  have hexpand : expand bound entry.method kept = some data := by
    rw [expand, if_pos hmethod, hdata]
  have hchecked : checked bound entry data = some data := if_pos (.inr hchecksum)
  have hknown : ¬ (entry.method ≠ 0 ∧ entry.method ≠ 8) := fun h => h.2 hmethod
  have hlarge : ¬ bound < entry.size := Nat.not_lt.mpr hsize
  unfold member
  rw [if_neg hreadable, hkept]
  dsimp only
  rw [if_neg hknown, if_neg hname, if_neg hlarge, hexpand, Option.bind_some, hchecked]

/-! ## An archive that is its own member -/

namespace SelfContaining

/-- The header of the member, which is named `r.zip`. -/
def header : Bytes := [
  80, 75, 3, 4, 20, 0, 0, 0, 8, 0, 0, 0, 33, 0, 78, 96, 138, 202, 25, 1, 0, 0, 158, 1, 0, 0, 5, 0,
  25, 0, 114, 46, 122, 105, 112, 111, 110, 21, 0, 0, 0, 0, 0, 0, 0, 0, 0, 0, 0, 0, 0, 0, 0, 0, 0,
  0, 0, 0, 0, 0]

/-- The directory, with the record at the end. -/
def directory : Bytes := [
  80, 75, 1, 2, 20, 0, 20, 0, 0, 0, 8, 0, 0, 0, 33, 0, 78, 96, 138, 202, 25, 1, 0, 0, 158, 1, 0, 0,
  5, 0, 0, 0, 0, 0, 0, 0, 0, 0, 0, 0, 0, 0, 0, 0, 0, 0, 114, 46, 122, 105, 112, 80, 75, 5, 6, 0, 0,
  0, 0, 1, 0, 1, 0, 51, 0, 0, 0, 85, 1, 0, 0, 0, 0]

/-- A block that repeats the last 65 bytes, and one without any symbol. -/
def repeat65 : Bytes := [162, 216, 0, 128, 0]

/-- A block that repeats the last 20 bytes. -/
def repeat20 : Bytes := [66, 136, 33, 196, 0]

/-- The last block, which repeats the last 77 bytes. -/
def repeat77 : Bytes := [163, 170, 97, 0]

def stream : Bytes :=
  storedHead 65 ++ header ++ storedHead 65 ++
    repeat65 ++
    storedHead 5 ++ repeat65 ++
    storedHead 5 ++ storedHead 5 ++
    storedHead 20 ++ repeat65 ++ storedHead 5 ++ storedHead 5 ++ storedHead 20 ++
    repeat20 ++
    storedHead 20 ++ repeat20 ++ storedHead 20 ++ repeat20 ++ storedHead 20 ++
    repeat20 ++
    storedHead 20 ++ repeat20 ++ storedHead 0 ++ storedHead 0 ++ storedHead 77 ++
    repeat20 ++ storedHead 0 ++ storedHead 0 ++
    storedHead 77 ++ repeat77 ++ directory ++
    repeat77

end SelfContaining

def selfContaining : Bytes :=
  SelfContaining.header ++ SelfContaining.stream ++ SelfContaining.directory

namespace SelfContaining

/-- The state between two blocks: what was inflated is a beginning of the archive. -/
def inflating (position produced : Nat) : InflateState :=
  .of stream position (selfContaining.take produced) (1 <<< 30)

theorem size_output_le (position produced : Nat) :
    (inflating position produced).output.size ≤ (inflating position produced).bound := by
  have hlength : selfContaining.length ≤ 1 <<< 30 := by decide +kernel
  exact (List.length_take_le' produced selfContaining).trans hlength

/-- From this position the rest of the stream inflates to the rest of the archive, in so many blocks
and the last one at most. -/
def Completes (position produced count : Nat) : Prop :=
  Yields (blocks (8 * stream.length) (count + 1)) (inflating position produced) ()
    (inflating 2247 414)

theorem Completes.of_block {position next produced more count : Nat}
    (hblock : Yields (block (8 * stream.length)) (inflating position produced) 0
      (inflating next more))
    (hrest : Completes next more count) : Completes position produced (count + 1) :=
  hblock.blocks_cons Nat.zero_ne_one (size_output_le next more) hrest

/-- A block of stored bytes stands here, and these are the next bytes of the archive. -/
def StoredAt (i length produced : Nat) : Prop :=
  produced + length ≤ selfContaining.length ∧
    stream.drop i = storedHead length ++
      ((selfContaining.drop produced).take length ++ stream.drop (i + 5 + length))
deriving Decidable

theorem Completes.stored (i length : Nat) {produced count : Nat} (h : StoredAt i length produced)
    (hrest : Completes (8 * (i + 5 + length)) (produced + length) count) :
    Completes (8 * i) produced (count + 1) := by
  obtain ⟨hproduced, hdrop⟩ := h
  have hlength : ((selfContaining.drop produced).take length).length = length := by
    rw [List.length_take, List.length_drop]
    omega
  have hmost : selfContaining.length ≤ 0xFFFF := by decide +kernel
  have hblock := @yields_block_stored stream (selfContaining.take produced) (1 <<< 30)
    (8 * stream.length) i ((selfContaining.drop produced).take length)
    (stream.drop (i + 5 + length)) (by omega) (hlength.symm ▸ hdrop)
  rw [hlength, ← List.take_add] at hblock
  exact hrest.of_block hblock

/-- A block in the fixed codes stands here, and what it inflates to comes next in the archive. -/
def RepeatsAt (position produced last next more : Nat) : Prop :=
  Yields bit (inflating position produced) last (inflating (position + 1) produced) ∧
    Yields (bits 2) (inflating (position + 1) produced) 1 (inflating (position + 3) produced) ∧
      Yields (symbols fixedLiteralCode fixedDistanceCode (8 * stream.length + 1))
        (inflating (position + 3) produced) () (inflating next more)
deriving Decidable

theorem RepeatsAt.yields {position produced last next more : Nat}
    (h : RepeatsAt position produced last next more) :
    Yields (block (8 * stream.length)) (inflating position produced) last (inflating next more) :=
  yields_block_fixed h.1 h.2.1 h.2.2

theorem inflate_stream : inflate (1 <<< 30) ⟨⟨stream⟩⟩ = some ⟨⟨selfContaining⟩⟩ := by
  -- from the last block back to the first, each named by the position of its first bit
  have h2216 (count : Nat) : Completes 2216 337 count :=
    have hlast : RepeatsAt 2216 337 1 2247 414 := by decide +kernel
    hlast.yields.blocks_last
  have h1440 (count : Nat) : Completes 1440 240 (count + 4) :=
    have hblock : RepeatsAt 1440 240 0 1480 260 := by decide +kernel
    .of_block hblock.yields <|
      .stored 185 0 (by decide +kernel) <|
        .stored 190 0 (by decide +kernel) <|
          .stored 195 77 (by decide +kernel) (h2216 count)
  have h1200 (count : Nat) : Completes 1200 200 (count + 6) :=
    have hblock : RepeatsAt 1200 200 0 1240 220 := by decide +kernel
    .of_block hblock.yields (.stored 155 20 (by decide +kernel) (h1440 count))
  have h960 (count : Nat) : Completes 960 160 (count + 8) :=
    have hblock : RepeatsAt 960 160 0 1000 180 := by decide +kernel
    .of_block hblock.yields (.stored 125 20 (by decide +kernel) (h1200 count))
  have h590 (count : Nat) : Completes 590 130 (count + 12) :=
    have hblock : RepeatsAt 590 130 0 600 130 := by decide +kernel
    .of_block hblock.yields <|
      .stored 75 5 (by decide +kernel) <|
        .stored 85 5 (by decide +kernel) <|
          .stored 95 20 (by decide +kernel) (h960 count)
  have h0 (count : Nat) : Completes 0 0 (count + 14) :=
    have hblock : RepeatsAt 560 65 0 590 130 := by decide +kernel
    .stored 0 65 (by decide +kernel) (.of_block hblock.yields (h590 count))
  have hstream : 2234 + 14 = 8 * stream.length := by decide +kernel
  have hall : selfContaining.take 414 = selfContaining := by decide +kernel
  have hinflate : Completes 0 0 (8 * stream.length) := hstream ▸ h0 2234
  unfold Completes inflating at hinflate
  rw [List.take_zero, hall] at hinflate
  exact inflate_of_yields hinflate

/-- What the directory says of the member. -/
def entry : Entry where
  name := "r.zip"
  encrypted := false
  enciphered := false
  method := 8
  checksum := 3398066254
  compressedSize := stream.length
  size := 414
  headerStart := 0

theorem keptBytes_entry : keptBytes ⟨⟨selfContaining⟩⟩ entry = some ⟨⟨stream⟩⟩ := by
  have hsignature : field ⟨⟨selfContaining⟩⟩ 0 4 = some 0x04034B50 := by decide +kernel
  have hname : field ⟨⟨selfContaining⟩⟩ 26 2 = some 5 := by decide +kernel
  have hextra : field ⟨⟨selfContaining⟩⟩ 28 2 = some 25 := by decide +kernel
  have hkept : (selfContaining.drop 60).take entry.compressedSize = stream := by decide +kernel
  have hwhole : 60 + entry.compressedSize ≤ selfContaining.length := by decide +kernel
  rw [@keptBytes_eq selfContaining entry 5 25 60 hsignature hname hextra rfl hwhole, hkept]

deriving instance DecidableEq for Entry

theorem readDirectory_eq (medium : Medium) :
    readDirectory medium ⟨⟨selfContaining⟩⟩ = some [entry] := by
  cases medium <;> decide +kernel

theorem crc32_eq_checksum : (crc32 ⟨⟨selfContaining⟩⟩).toNat = entry.checksum := by
  rw [crc32_eq, crcByte_eq]
  decide +kernel

end SelfContaining

/-- The only member is the archive. -/
theorem members_selfContaining (medium : Medium) :
    members (1 <<< 30) medium ⟨⟨selfContaining⟩⟩ =
      some [.file "r.zip" 414 (some ⟨⟨selfContaining⟩⟩)] := by
  have hmember := @member_eq_file (1 <<< 30) ⟨⟨selfContaining⟩⟩ _ _ SelfContaining.entry
    (by decide) rfl (by decide) (by decide) SelfContaining.keptBytes_entry
    SelfContaining.inflate_stream SelfContaining.crc32_eq_checksum
  rw [members, SelfContaining.readDirectory_eq, Option.map_some, List.map_singleton, hmember]
  rfl

end TestCoverage.Archive

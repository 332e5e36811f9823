import Mathlib
import TestCoverage.Bytes.Cursor

/-!
# Readers that take exactly some bytes

A reader takes bytes off a cursor and may fail, for whatever reasons a format has. `Reads` says
that it takes exactly some bytes for a value, whatever follows them. Readers in sequence take
the bytes of both (`Reads.bind`). A number of fixed width is read back from its bytes
(`Bytes.ofBigEndian_bigEndian`), and the bytes are written again for the number that they read
as (`Bytes.bigEndian_ofBigEndian`).
-/

namespace TestCoverage

namespace Bytes

theorem ofBigEndian_bigEndian {width n : Nat} (h : n < 256 ^ width) :
    ofBigEndian (bigEndian width n) = n := by
  induction width generalizing n with
  | zero =>
    have hzero : n = 0 := by simpa using h
    rw [hzero]
    rfl
  | succ width ih =>
    have hhigh : n / 256 < 256 ^ width := by
      rw [Nat.div_lt_iff_lt_mul (by decide)]
      simpa only [Nat.pow_succ] using h
    rw [bigEndian, ofBigEndian_append, ih hhigh, UInt8.toNat_ofNat']
    omega

theorem ofBigEndian_lt (bytes : Bytes) : ofBigEndian bytes < 256 ^ bytes.length := by
  induction bytes using List.reverseRecOn with
  | nil => decide
  | append_singleton bytes b ih =>
    have hb := b.toNat_lt
    rw [ofBigEndian_append, List.length_append, List.length_singleton, Nat.pow_succ]
    omega

/-- The bytes of a number of fixed width are the only ones that write it. -/
theorem bigEndian_ofBigEndian (bytes : Bytes) :
    bigEndian bytes.length (ofBigEndian bytes) = bytes := by
  induction bytes using List.reverseRecOn with
  | nil => rfl
  | append_singleton bytes b ih =>
    have hb := b.toNat_lt
    have hhigh : (ofBigEndian bytes * 256 + b.toNat) / 256 = ofBigEndian bytes := by omega
    have hlow : UInt8.ofNat (ofBigEndian bytes * 256 + b.toNat) = b := by
      apply UInt8.toNat_inj.mp
      rw [UInt8.toNat_ofNat']
      omega
    rw [ofBigEndian_append, List.length_append, List.length_singleton, bigEndian, hhigh, hlow, ih]

/-- Bytes in two parts end too early in the first part, or behind it in the second one. -/
theorem cut_append {front rest part : Bytes} (h : part <+: front ++ rest)
    (hne : part ≠ front ++ rest) :
    (part <+: front ∧ part ≠ front) ∨ ∃ left, part = front ++ left ∧ left <+: rest ∧ left ≠ rest := by
  by_cases hwhole : front <+: part
  · obtain ⟨left, rfl⟩ := hwhole
    refine .inr ⟨left, rfl, (List.prefix_append_right_inj front).mp h, ?_⟩
    rintro rfl
    exact hne rfl
  · have hfront := List.prefix_or_prefix_of_prefix h (List.prefix_append front rest)
    refine .inl ⟨hfront.resolve_right hwhole, ?_⟩
    rintro rfl
    exact hwhole List.prefix_rfl

end Bytes

theorem Cursor.take?_append (offset : Nat) (bytes rest : Bytes) :
    (⟨offset, bytes ++ rest⟩ : Cursor).take? bytes.length =
      some (bytes, ⟨offset + bytes.length, rest⟩) :=
  Cursor.take?_eq_some_iff.mpr ⟨rfl, rfl, rfl⟩

/-- The reader takes exactly these bytes for the value, whatever follows them. -/
def Reads {ε α : Type} (reader : StateT Cursor (Except ε) α) (bytes : Bytes) (value : α) : Prop :=
  ∀ offset rest, reader ⟨offset, bytes ++ rest⟩ = .ok (value, ⟨offset + bytes.length, rest⟩)

namespace Reads

variable {ε α β : Type} {reader : StateT Cursor (Except ε) α} {bytes more : Bytes} {value : α}

theorem pure (value : α) : Reads (Pure.pure value : StateT Cursor (Except ε) α) [] value :=
  fun _ _ => rfl

/-- What comes next begins with the value, behind the bytes. -/
theorem run_bind (h : Reads reader bytes value) (next : α → StateT Cursor (Except ε) β)
    (offset : Nat) (rest : Bytes) :
    (reader >>= next) ⟨offset, bytes ++ rest⟩ = next value ⟨offset + bytes.length, rest⟩ := by
  change (reader ⟨offset, bytes ++ rest⟩ >>= fun (a, cursor) => next a cursor) = _
  rw [h]
  rfl

theorem bind {next : α → StateT Cursor (Except ε) β} {result : β}
    (hfirst : Reads reader bytes value) (hnext : Reads (next value) more result) :
    Reads (reader >>= next) (bytes ++ more) result := by
  intro offset rest
  rw [List.append_assoc, hfirst.run_bind, hnext, List.length_append, Nat.add_assoc]

/-- A step that takes nothing comes first. -/
theorem bind_nil {next : α → StateT Cursor (Except ε) β} {result : β}
    (hfirst : Reads reader [] value) (hnext : Reads (next value) more result) :
    Reads (reader >>= next) more result :=
  hfirst.bind hnext

/-- A step that takes nothing comes last. -/
theorem last {next : α → StateT Cursor (Except ε) β} {result : β}
    (hfirst : Reads reader bytes value) (hnext : Reads (next value) [] result) :
    Reads (reader >>= next) bytes result := by
  rw [← List.append_nil bytes]
  exact hfirst.bind hnext

end Reads

end TestCoverage

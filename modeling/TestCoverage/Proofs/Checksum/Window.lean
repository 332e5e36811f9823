import Mathlib
import TestCoverage.Proofs.Checksum

/-!
# Checksums of byte strings that differ in one window

The check is linear, in the state and the bytes together (`update_xor`), and no step of it loses
anything: a shift can be undone since the bit that leaves at the low end comes back at the high end
(`Register.getLsbD_shift_last`), so different states stay different whatever bytes follow
(`update_injective`).

Up to eight bytes fit into the register side by side. Taking them one after the other is adding
all of them at once, as one number with the first byte lowest, and shifting them out
(`toBitVec_update_of_length_le`). So other bytes there make another state, and byte strings that
differ within eight places in a row have different checksums (`update_ne_of_differWithin`).
-/

namespace TestCoverage

namespace Bytes

/-- The byte strings are of one length and not the same, and all places where they differ are
among `width` places in a row. -/
structure DifferWithin (width : Nat) (bytes others : Bytes) : Prop where
  length_eq : bytes.length = others.length
  ne : bytes ≠ others
  exists_window : ∃ start, ∀ i, bytes[i]? ≠ others[i]? → start ≤ i ∧ i < start + width

/-- What stands before the window and behind it is the same in both. -/
theorem DifferWithin.exists_split {width : Nat} {bytes others : Bytes}
    (h : bytes.DifferWithin width others) :
    ∃ front part other back : Bytes, bytes = front ++ (part ++ back) ∧
      others = front ++ (other ++ back) ∧ part.length = other.length ∧ part.length ≤ width ∧
        part ≠ other := by
  obtain ⟨hlength, hne, start, hwindow⟩ := h
  have hsame (i : Nat) (hi : i < start ∨ start + width ≤ i) : others[i]? = bytes[i]? := by
    by_contra hdiffer
    have := hwindow i (Ne.symm hdiffer)
    omega
  have hfront : others.take start = bytes.take start := by
    apply List.ext_getElem?
    intro i
    rw [List.getElem?_take, List.getElem?_take]
    split
    · next hi => exact hsame i (.inl hi)
    · rfl
  have hback : (others.drop start).drop width = (bytes.drop start).drop width := by
    apply List.ext_getElem?
    intro i
    simp only [List.getElem?_drop]
    exact hsame _ (.inr (by omega))
  have hbytes : bytes = bytes.take start ++ ((bytes.drop start).take width ++
      (bytes.drop start).drop width) := by
    rw [List.take_append_drop, List.take_append_drop]
  have hothers : others = bytes.take start ++ ((others.drop start).take width ++
      (bytes.drop start).drop width) := by
    rw [← hfront, ← hback, List.take_append_drop, List.take_append_drop]
  refine ⟨_, _, _, _, hbytes, hothers, ?_, List.length_take_le _ _, ?_⟩
  · simp only [List.length_take, List.length_drop, hlength]
  · intro hpart
    rw [hpart] at hbytes
    exact hne (hbytes.trans hothers.symm)

/-! ## Bytes as one number -/

theorem ofLittleEndian_lt (bytes : Bytes) : ofLittleEndian bytes < 256 ^ bytes.length := by
  induction bytes with
  | nil => decide
  | cons b rest ih =>
    have hb := b.toNat_lt
    rw [ofLittleEndian, List.length_cons, Nat.pow_succ]
    omega

theorem ofLittleEndian_inj {bytes others : Bytes} (hlength : bytes.length = others.length)
    (h : ofLittleEndian bytes = ofLittleEndian others) : bytes = others := by
  induction bytes generalizing others with
  | nil => exact (List.length_eq_zero_iff.mp hlength.symm).symm
  | cons b rest ih =>
    cases others with
    | nil => cases hlength
    | cons other others =>
      have hb := b.toNat_lt
      have hother := other.toNat_lt
      rw [ofLittleEndian, ofLittleEndian] at h
      have hfirst : b = other := UInt8.toNat_inj.mp (by omega)
      have hrest : rest = others := ih (Nat.succ.inj hlength) (by omega)
      rw [hfirst, hrest]

end Bytes

namespace Checksum

/-! ## No shift loses anything -/

namespace Register

/-- The bit that leaves at the low end is the new bit at the high end. -/
theorem getLsbD_shift_last (register : BitVec 64) :
    (shift register).getLsbD 63 = register.getLsbD 0 := by
  have hmoved : (register >>> 1).getLsbD 63 = false := by
    rw [BitVec.getLsbD_ushiftRight]
    exact BitVec.getLsbD_of_ge _ _ (by decide)
  unfold shift
  cases hlow : register.getLsbD 0 with
  | false => exact hmoved
  | true =>
    rw [if_pos rfl, BitVec.getLsbD_xor, hmoved]
    decide

theorem shift_eq_zero {register : BitVec 64} (h : shift register = 0#64) : register = 0#64 := by
  have hlow : register.getLsbD 0 = false := by
    rw [← getLsbD_shift_last, h]
    exact BitVec.getLsbD_zero
  rw [shift, hlow, if_neg Bool.false_ne_true] at h
  apply BitVec.eq_of_getLsbD_eq
  intro i _
  obtain _ | i := i
  · exact hlow
  · have hmoved := congrArg (·.getLsbD i) h
    rw [BitVec.getLsbD_ushiftRight, Nat.add_comm, BitVec.getLsbD_zero] at hmoved
    rw [hmoved, BitVec.getLsbD_zero]

theorem shift_injective : Function.Injective shift := by
  intro a b h
  have hzero : shift (a ^^^ b) = 0#64 := by
    rw [shift_xor, h]
    exact BitVec.xor_self
  exact BitVec.xor_eq_zero_iff.mp (shift_eq_zero hzero)

/-- A number that is added above the low bits comes down to them. -/
theorem iterate_shift_shiftLeft (n : Nat) {number : Nat} (h : number < 2 ^ (64 - n)) :
    shift^[n] (BitVec.ofNat 64 number <<< n) = BitVec.ofNat 64 number := by
  have hlow : ∀ i < n, (BitVec.ofNat 64 number <<< n).getLsbD i = false := by
    intro i hi
    simp [BitVec.getLsbD_shiftLeft, hi]
  rw [iterate_shift_of_low_zero n hlow]
  apply BitVec.eq_of_getLsbD_eq
  intro i hi
  rw [BitVec.getLsbD_ushiftRight, BitVec.getLsbD_shiftLeft, BitVec.getLsbD_ofNat,
    BitVec.getLsbD_ofNat, Nat.add_sub_cancel_left]
  by_cases hn : n + i < 64
  · simp [hn, hi]
  · have hhigh : number.testBit i = false :=
      Nat.testBit_lt_two_pow (h.trans_le (Nat.pow_le_pow_right (by decide) (by omega)))
    simp [hhigh]

end Register

/-! ## Steps of the check -/

theorem updateByte_xor (state other : UInt64) (a b : UInt8) :
    updateByte (state ^^^ other) (a ^^^ b) = updateByte state a ^^^ updateByte other b := by
  apply UInt64.toBitVec_inj.mp
  rw [UInt64.toBitVec_xor, toBitVec_updateByte, toBitVec_updateByte, toBitVec_updateByte]
  unfold Register.takeByte
  rw [← Register.iterate_shift_xor, UInt64.toBitVec_xor, UInt8.toBitVec_xor, BitVec.setWidth_xor]
  congr 1
  ac_rfl

/-- The check of a sum is the sum of the checks. -/
theorem update_xor {bytes others : Bytes} (h : bytes.length = others.length)
    (state other : UInt64) :
    update (state ^^^ other) (List.zipWith (· ^^^ ·) bytes others) =
      update state bytes ^^^ update other others := by
  induction bytes generalizing others state other with
  | nil =>
    obtain rfl := List.length_eq_zero_iff.mp h.symm
    rfl
  | cons a bytes ih =>
    cases others with
    | nil => cases h
    | cons b others =>
      have hstep := ih (Nat.succ.inj h) (updateByte state a) (updateByte other b)
      rw [← updateByte_xor] at hstep
      exact hstep

theorem updateByte_injective (b : UInt8) : Function.Injective (updateByte · b) := by
  intro state other h
  have hregister := congrArg UInt64.toBitVec h
  rw [toBitVec_updateByte, toBitVec_updateByte] at hregister
  have hadded := Register.shift_injective.iterate 8 hregister
  exact UInt64.toBitVec_inj.mp ((BitVec.xor_left_inj _).mp hadded)

theorem update_injective (bytes : Bytes) : Function.Injective (update · bytes) := by
  induction bytes with
  | nil => exact fun _ _ h => h
  | cons b rest ih => exact ih.comp (updateByte_injective b)

/-! ## Eight bytes at once -/

theorem ofNat_ofLittleEndian_cons (b : UInt8) (rest : Bytes) :
    BitVec.ofNat 64 (Bytes.ofLittleEndian (b :: rest)) =
      b.toBitVec.setWidth 64 ^^^ BitVec.ofNat 64 (Bytes.ofLittleEndian rest) <<< 8 := by
  have hbit (i : Nat) : (Bytes.ofLittleEndian (b :: rest)).testBit i =
      if i < 8 then b.toNat.testBit i else (Bytes.ofLittleEndian rest).testBit (i - 8) := by
    rw [Bytes.ofLittleEndian, Nat.add_comm]
    exact Nat.testBit_two_pow_mul_add _ b.toNat_lt i
  apply BitVec.eq_of_getLsbD_eq
  intro i hi
  rw [BitVec.getLsbD_xor, BitVec.getLsbD_ofNat, hbit, BitVec.getLsbD_shiftLeft,
    BitVec.getLsbD_setWidth, BitVec.getLsbD_ofNat]
  by_cases hlow : i < 8
  · simp only [hlow, hi, if_true, decide_true, Bool.true_and, Bool.not_true, Bool.and_false,
      Bool.false_and, Bool.xor_false]
    rfl
  · have hbyte : b.toBitVec.getLsbD i = false := BitVec.getLsbD_of_ge _ _ (by omega)
    simp [hlow, hi, hbyte, show i - 8 < 64 by omega]

/-- Taking up to eight bytes is adding them all at once and shifting them out. -/
theorem toBitVec_update_of_length_le {bytes : Bytes} (h : bytes.length ≤ 8) (state : UInt64) :
    (update state bytes).toBitVec = Register.shift^[8 * bytes.length]
      (state.toBitVec ^^^ BitVec.ofNat 64 (Bytes.ofLittleEndian bytes)) := by
  induction bytes generalizing state with
  | nil => exact BitVec.xor_zero.symm
  | cons b rest ih =>
    rw [List.length_cons] at h
    have hrest : Bytes.ofLittleEndian rest < 2 ^ (64 - 8) := by
      apply (Bytes.ofLittleEndian_lt rest).trans_le
      exact Nat.pow_le_pow_right (by decide) (show rest.length ≤ 7 by omega)
    -- the other bytes come down to the low bits while the first one leaves
    calc (update (updateByte state b) rest).toBitVec
        = Register.shift^[8 * rest.length] ((updateByte state b).toBitVec ^^^
            BitVec.ofNat 64 (Bytes.ofLittleEndian rest)) := ih (by omega) _
      _ = Register.shift^[8 * rest.length] (Register.shift^[8]
            ((state.toBitVec ^^^ b.toBitVec.setWidth 64) ^^^
              BitVec.ofNat 64 (Bytes.ofLittleEndian rest) <<< 8)) := by
          rw [Register.iterate_shift_xor 8, Register.iterate_shift_shiftLeft 8 hrest,
            toBitVec_updateByte, Register.takeByte]
      _ = _ := by
          rw [← Function.iterate_add_apply, ofNat_ofLittleEndian_cons, BitVec.xor_assoc,
            List.length_cons, Nat.mul_succ]

theorem update_inj_of_length_le {bytes others : Bytes} (hlength : bytes.length = others.length)
    (hshort : bytes.length ≤ 8) {state : UInt64} (h : update state bytes = update state others) :
    bytes = others := by
  have hregister := congrArg UInt64.toBitVec h
  rw [toBitVec_update_of_length_le hshort, toBitVec_update_of_length_le (hlength ▸ hshort),
    ← hlength] at hregister
  have hadded := (BitVec.xor_right_inj _).mp (Register.shift_injective.iterate _ hregister)
  -- both numbers fit into the register
  have hfits (list : Bytes) (hlist : list.length ≤ 8) : Bytes.ofLittleEndian list < 2 ^ 64 :=
    (Bytes.ofLittleEndian_lt list).trans_le (Nat.pow_le_pow_right (by decide) hlist)
  have hnumber := congrArg BitVec.toNat hadded
  rw [BitVec.toNat_ofNat, BitVec.toNat_ofNat, Nat.mod_eq_of_lt (hfits _ hshort),
    Nat.mod_eq_of_lt (hfits _ (hlength ▸ hshort))] at hnumber
  exact Bytes.ofLittleEndian_inj hlength hnumber

/-- From one state, byte strings that differ within eight places in a row come to different
states. -/
theorem update_ne_of_differWithin {bytes others : Bytes} (h : bytes.DifferWithin 8 others)
    (state : UInt64) : update state bytes ≠ update state others := by
  obtain ⟨front, part, other, back, rfl, rfl, hlength, hshort, hne⟩ := h.exists_split
  intro hsame
  simp only [update_append] at hsame
  exact hne (update_inj_of_length_le hlength hshort (update_injective back hsame))

end Checksum

end TestCoverage

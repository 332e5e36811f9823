import Mathlib
import TestCoverage.Checksum

/-!
# The table agrees with the shift register

The check is defined by a register of 64 bits. A byte is added to the eight low bits, then eight
bits leave at the low end, and for each of them that is a one the polynomial is added
(`Register.takeByte`). The table takes all eight bits at once.

Shifting is linear (`Register.iterate_shift_xor`), and bits that are zero leave without an addition
(`Register.iterate_shift_of_low_zero`). So eight shifts are those of the low byte, which the table
knows, and the rest moved down (`Register.shift_eight`). Hence `update_eq_register`: on every
state and every byte string the table does what the register does.
-/

namespace TestCoverage.Checksum

namespace Register

/-- One bit leaves the register, and the polynomial is added if it was a one. -/
def shift (register : BitVec 64) : BitVec 64 :=
  if register.getLsbD 0 then (register >>> 1) ^^^ 0xD800000000000000#64 else register >>> 1

/-- A byte is added to the low bits, and eight bits leave. -/
def takeByte (register : BitVec 64) (b : UInt8) : BitVec 64 :=
  shift^[8] (register ^^^ b.toBitVec.setWidth 64)

def take (register : BitVec 64) (bytes : Bytes) : BitVec 64 := bytes.foldl takeByte register

/-! ## Shifting is linear -/

theorem shift_xor (a b : BitVec 64) : shift (a ^^^ b) = shift a ^^^ shift b := by
  -- where a one leaves both registers, the polynomial is added twice
  have htwice (p : BitVec 64) : (a >>> 1 ^^^ p) ^^^ (b >>> 1 ^^^ p) = a >>> 1 ^^^ b >>> 1 :=
    calc (a >>> 1 ^^^ p) ^^^ (b >>> 1 ^^^ p) = (a >>> 1 ^^^ b >>> 1) ^^^ (p ^^^ p) := by ac_rfl
      _ = a >>> 1 ^^^ b >>> 1 := by rw [BitVec.xor_self, BitVec.xor_zero]
  unfold shift
  rw [BitVec.getLsbD_xor, BitVec.ushiftRight_xor_distrib]
  cases a.getLsbD 0 <;> cases b.getLsbD 0
  · rfl
  · exact BitVec.xor_assoc ..
  · change (a >>> 1 ^^^ b >>> 1) ^^^ _ = (a >>> 1 ^^^ _) ^^^ b >>> 1
    ac_rfl
  · exact (htwice _).symm

theorem iterate_shift_xor (n : Nat) (a b : BitVec 64) :
    shift^[n] (a ^^^ b) = shift^[n] a ^^^ shift^[n] b := by
  induction n generalizing a b with
  | zero => rfl
  | succ n ih => rw [Function.iterate_succ_apply, shift_xor, ih]; rfl

/-- Zeros leave without an addition. -/
theorem iterate_shift_of_low_zero (n : Nat) {register : BitVec 64}
    (h : ∀ i < n, register.getLsbD i = false) : shift^[n] register = register >>> n := by
  induction n generalizing register with
  | zero => simp
  | succ n ih =>
    have hfirst : shift register = register >>> 1 := by
      rw [shift, h 0 n.succ_pos, if_neg Bool.false_ne_true]
    have hrest : ∀ i < n, (register >>> 1).getLsbD i = false := fun i hi => by
      rw [BitVec.getLsbD_ushiftRight]
      exact h (1 + i) (by omega)
    rw [Function.iterate_succ_apply, hfirst, ih hrest, ← BitVec.shiftRight_add, Nat.add_comm]

/-! ## A byte at a time -/

/-- Eight shifts are those of the low byte, and the rest moved down. -/
theorem shift_eight (register : BitVec 64) :
    shift^[8] register =
      (register >>> 8) ^^^ shift^[8] ((register.setWidth 8).setWidth 64) := by
  have hlow (i : Nat) : ((register.setWidth 8).setWidth 64).getLsbD i =
      (decide (i < 8) && register.getLsbD i) := by
    rw [BitVec.getLsbD_setWidth, BitVec.getLsbD_setWidth]
    by_cases hi : i < 8
    · simp [hi, Nat.lt_trans hi (by decide : 8 < 64)]
    · simp [hi]
  -- what is left without the low byte
  have hhigh : ∀ i < 8,
      (register ^^^ (register.setWidth 8).setWidth 64).getLsbD i = false := fun i hi => by
    rw [BitVec.getLsbD_xor, hlow]
    simp [hi]
  have hmoved : (register ^^^ (register.setWidth 8).setWidth 64) >>> 8 = register >>> 8 := by
    refine BitVec.eq_of_getLsbD_eq fun i _ => ?_
    rw [BitVec.getLsbD_ushiftRight, BitVec.getLsbD_ushiftRight, BitVec.getLsbD_xor, hlow]
    simp
  calc shift^[8] register
      = shift^[8] ((register ^^^ (register.setWidth 8).setWidth 64) ^^^
          (register.setWidth 8).setWidth 64) := by
        rw [BitVec.xor_assoc, BitVec.xor_self, BitVec.xor_zero]
    _ = _ := by rw [iterate_shift_xor, iterate_shift_of_low_zero 8 hhigh, hmoved]

end Register

/-! ## The table -/

theorem toBitVec_shiftBit (state : UInt64) :
    (shiftBit state).toBitVec = Register.shift state.toBitVec := by
  have hbit : state &&& 1 = 1 ↔ state.toBitVec.getLsbD 0 = true := by
    rw [← UInt64.toBitVec_inj, UInt64.toBitVec_and]
    change state.toBitVec &&& 1#64 = 1#64 ↔ _
    rw [BitVec.and_one_eq_setWidth_ofBool_getLsbD]
    cases state.toBitVec.getLsbD 0 <;> decide
  unfold shiftBit Register.shift
  by_cases hone : state &&& 1 = 1
  · rw [if_pos hone, if_pos (hbit.mp hone)]
    rfl
  · rw [if_neg hone, if_neg (hone ∘ hbit.mpr)]
    rfl

theorem toBitVec_shiftBits (steps : Nat) (state : UInt64) :
    (shiftBits steps state).toBitVec = Register.shift^[steps] state.toBitVec := by
  induction steps generalizing state with
  | zero => rfl
  | succ steps ih => rw [shiftBits, ih, toBitVec_shiftBit, Function.iterate_succ_apply]

/-- The entry of a byte is what eight shifts make of it. -/
theorem toBitVec_table (b : UInt8) :
    (table.get b.toFin).toBitVec = Register.shift^[8] (b.toBitVec.setWidth 64) := by
  have hget : table.get b.toFin = shiftBits 8 (UInt64.ofNat b.toNat) := by
    unfold table
    rw [Vector.get_eq_getElem, Vector.getElem_ofFn]
    rfl
  have hbyte : (UInt64.ofNat b.toNat).toBitVec = b.toBitVec.setWidth 64 :=
    BitVec.eq_of_toNat_eq (by rw [BitVec.toNat_setWidth]; rfl)
  rw [hget, toBitVec_shiftBits, hbyte]

theorem toBitVec_updateByte (state : UInt64) (b : UInt8) :
    (updateByte state b).toBitVec = Register.takeByte state.toBitVec b := by
  have hbyte : (b.toBitVec.setWidth 64) >>> 8 = 0#64 := by
    refine BitVec.eq_of_getLsbD_eq fun i _ => ?_
    rw [BitVec.getLsbD_ushiftRight, BitVec.getLsbD_setWidth, BitVec.getLsbD_of_ge _ _ (by omega)]
    simp
  unfold updateByte Register.takeByte
  rw [Register.shift_eight, BitVec.ushiftRight_xor_distrib, hbyte, BitVec.xor_zero,
    UInt64.toBitVec_xor, toBitVec_table]
  rfl

/-- On every state and every byte string the table does what the shift register does. The
identifier of a class file is what is in the register that was zero at first. -/
theorem update_eq_register (state : UInt64) (bytes : Bytes) :
    (update state bytes).toBitVec = Register.take state.toBitVec bytes ∧
      (ClassId.ofBytes bytes).bits.toBitVec = Register.take 0 bytes := by
  have hupdate (state : UInt64) : (update state bytes).toBitVec =
      Register.take state.toBitVec bytes := by
    unfold update Register.take
    induction bytes generalizing state with
    | nil => rfl
    | cons b rest ih =>
      rw [List.foldl_cons, List.foldl_cons, ih, toBitVec_updateByte]
  exact ⟨hupdate state, hupdate 0⟩

/-- The check value: what the register makes of the digits from one to nine. -/
example : Register.take 0 [0x31, 0x32, 0x33, 0x34, 0x35, 0x36, 0x37, 0x38, 0x39] =
    0x46a5a9388a5beffe#64 := by
  decide +kernel

end TestCoverage.Checksum

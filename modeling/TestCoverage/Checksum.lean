import TestCoverage.Bytes
import TestCoverage.KeyOrder

/-!
# The checksum of class files

A class version is known by the cyclic redundancy check of its bytes with the reflected
64-bit polynomial `D800000000000000`, initial value zero and no final inversion. Each byte
is taken by one table look-up (`update`); an entry of the table is eight steps of the
bit-serial check (`shiftBit`) from its index.
-/

namespace TestCoverage

namespace Checksum

/-- The reflected polynomial x⁶⁴ + x⁴ + x³ + x + 1. -/
def polynomial : UInt64 := 0xD800000000000000

/-- One step of the bit-serial check: the lowest bit leaves, and a one that leaves adds the
polynomial. -/
def shiftBit (state : UInt64) : UInt64 :=
  if state &&& 1 = 1 then (state >>> 1) ^^^ polynomial else state >>> 1

/-- `steps` steps of the bit-serial check. -/
def shiftBits : Nat → UInt64 → UInt64
  | 0, state => state
  | steps + 1, state => shiftBits steps (shiftBit state)

/-- For each byte, what eight steps make of it. -/
def table : Vector UInt64 256 := Vector.ofFn fun i => shiftBits 8 (UInt64.ofNat i)

def updateByte (state : UInt64) (b : UInt8) : UInt64 :=
  (state >>> 8) ^^^ table.get (state ^^^ b.toUInt64).toUInt8.toFin

def update (state : UInt64) (bytes : Bytes) : UInt64 := bytes.foldl updateByte state

theorem update_append (state : UInt64) (bytes others : Bytes) :
    update state (bytes ++ others) = update (update state bytes) others := by
  simp [update]

end Checksum

/-- The identifier of a class version: the checksum of its class file. -/
structure ClassId where
  bits : UInt64
deriving DecidableEq, Repr, Inhabited

namespace ClassId

/-- The identifier of the class file with these bytes. -/
def ofBytes (bytes : Bytes) : ClassId := ⟨Checksum.update 0 bytes⟩

/-- The written form: sixteen hexadecimal digits. -/
def render (id : ClassId) : String := hex 16 id.bits.toNat

/-- Identifiers are ordered as unsigned numbers. -/
instance : LT ClassId := ⟨fun a b => a.bits < b.bits⟩

instance : DecidableLT ClassId := fun a b => inferInstanceAs (Decidable (a.bits < b.bits))

instance : KeyOrder ClassId where
  irrefl a := UInt64.lt_irrefl a.bits
  trans hab hbc := UInt64.lt_trans hab hbc
  eq_of_not_lt {a b} hab hba := by
    cases a
    cases b
    exact congrArg ClassId.mk
      (UInt64.le_antisymm (UInt64.not_lt.mp hba) (UInt64.not_lt.mp hab))

end ClassId

end TestCoverage

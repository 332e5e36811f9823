/-!
# The checksum of archive members

Archives keep for each member the cyclic redundancy check of its data with the reflected
polynomial `EDB88320`, all bits inverted before and after.
-/

namespace TestCoverage.Archive

def crcPolynomial : UInt32 := 0xEDB88320

/-- `steps` steps of the bit-serial check. -/
def crcShift : Nat → UInt32 → UInt32
  | 0, state => state
  | steps + 1, state =>
    crcShift steps (if state &&& 1 = 1 then (state >>> 1) ^^^ crcPolynomial else state >>> 1)

/-- For each byte, what eight steps make of it. -/
def crcTable : Vector UInt32 256 := Vector.ofFn fun i => crcShift 8 (UInt32.ofNat i)

def crcByte (state : UInt32) (b : UInt8) : UInt32 :=
  (state >>> 8) ^^^ crcTable.get (state ^^^ b.toUInt32).toUInt8.toFin

def crc32 (data : ByteArray) : UInt32 := ~~~(data.foldl crcByte 0xFFFFFFFF)

end TestCoverage.Archive

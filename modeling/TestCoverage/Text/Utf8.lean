import TestCoverage.Bytes

/-!
# UTF-8

`encode` writes a text as bytes and `decode` reads it back, refusing every byte string that
is not well formed: overlong forms, surrogates, code points above U+10FFFF and cut
sequences. `decodeLossy` reads any byte string, with U+FFFD for each maximal part that
cannot begin a character.
-/

namespace TestCoverage.Text.Utf8

/-- A byte that continues a sequence, with six bits of the code point. -/
def isContinuation (b : UInt8) : Bool := 0x80 ≤ b && b ≤ 0xBF

/-- A continuation byte that carries the six low bits of `n`. -/
def continuation (n : Nat) : UInt8 := UInt8.ofNat (0x80 + n % 64)

def encodeChar (c : Char) : Bytes :=
  let n := c.toNat
  if n < 0x80 then [UInt8.ofNat n]
  else if n < 0x800 then [UInt8.ofNat (0xC0 + n / 64), continuation n]
  else if n < 0x10000 then
    [UInt8.ofNat (0xE0 + n / 4096), continuation (n / 64), continuation n]
  else
    [UInt8.ofNat (0xF0 + n / 262144), continuation (n / 4096), continuation (n / 64),
      continuation n]

def encode (text : List Char) : Bytes := text.flatMap encodeChar

/-- The code point of a sequence: the bits of its first byte, then six of each other byte. -/
def codePoint (bits : Nat) (others : Bytes) : Nat :=
  others.foldl (fun n b => n * 64 + b.toNat % 64) bits

/-- What a first byte announces: how many bytes follow, the range of the first of them, and
the bits of the code point in the first byte. -/
structure Lead where
  more : Nat
  low : UInt8
  high : UInt8
  bits : Nat

/-- The announcement of a byte, if it can begin a character. The range of the second byte
excludes overlong forms, surrogates and code points above U+10FFFF. -/
def lead? (b : UInt8) : Option Lead :=
  let n := b.toNat
  if n < 0x80 then some ⟨0, 0x80, 0xBF, n⟩
  else if n < 0xC2 then none
  else if n < 0xE0 then some ⟨1, 0x80, 0xBF, n - 0xC0⟩
  else if n < 0xF0 then
    some ⟨2, if n = 0xE0 then 0xA0 else 0x80, if n = 0xED then 0x9F else 0xBF, n - 0xE0⟩
  else if n < 0xF5 then
    some ⟨3, if n = 0xF0 then 0x90 else 0x80, if n = 0xF4 then 0x8F else 0xBF, n - 0xF0⟩
  else none

/-- Reads `more` bytes, the first of them in the given range and the others continuation
bytes. The answer is the code point, or nothing where a byte does not fit, with what is left
to read. -/
def follow : Nat → UInt8 → UInt8 → Nat → Bytes → Option Nat × Bytes
  | 0, _, _, n, rest => (some n, rest)
  | _ + 1, _, _, _, [] => (none, [])
  | more + 1, low, high, n, b :: rest =>
    if low ≤ b && b ≤ high then follow more 0x80 0xBF (n * 64 + b.toNat % 64) rest
    else (none, b :: rest)

theorem length_follow_le (more : Nat) (low high : UInt8) (n : Nat) (bytes : Bytes) :
    (follow more low high n bytes).2.length ≤ bytes.length := by
  induction more generalizing low high n bytes with
  | zero => simp [follow]
  | succ more ih =>
    cases bytes with
    | nil => simp [follow]
    | cons b rest =>
      rw [follow]
      split
      · exact Nat.le_succ_of_le (ih _ _ _ _)
      · simp

/-- Reads one character off the front of `b :: rest`: the character, or nothing for a part
that cannot begin one, with what is left to read. -/
def next (b : UInt8) (rest : Bytes) : Option Char × Bytes :=
  match lead? b with
  | none => (none, rest)
  | some l =>
    let (n?, left) := follow l.more l.low l.high l.bits rest
    (n?.map Char.ofNat, left)

theorem length_next_le (b : UInt8) (rest : Bytes) : (next b rest).2.length ≤ rest.length := by
  unfold next
  split
  · simp
  · exact length_follow_le _ _ _ _ _

/-- The text that a well formed byte string writes. -/
def decode : Bytes → Option (List Char)
  | [] => some []
  | b :: rest =>
    match (next b rest).1 with
    | none => none
    | some c => (decode (next b rest).2).map (c :: ·)
termination_by bytes => bytes.length
decreasing_by exact Nat.lt_succ_of_le (length_next_le b rest)

/-- The text of any byte string, with U+FFFD for each part that is not well formed. -/
def decodeLossy : Bytes → List Char
  | [] => []
  | b :: rest => (next b rest).1.getD '\uFFFD' :: decodeLossy (next b rest).2
termination_by bytes => bytes.length
decreasing_by exact Nat.lt_succ_of_le (length_next_le b rest)

end TestCoverage.Text.Utf8

namespace TestCoverage

namespace Bytes

/-- The bytes of a text in UTF-8. -/
def ofString (text : String) : Bytes := Text.Utf8.encode text.toList

/-- The text of some bytes, with U+FFFD for each part that is not UTF-8. -/
def toText (bytes : Bytes) : String := String.ofList (Text.Utf8.decodeLossy bytes)

end Bytes

/-! Paths may be any bytes. Where they are asked for, texts stand for their UTF-8. -/

instance : Coe String Bytes := ⟨Bytes.ofString⟩

instance : Coe (List String) (List Bytes) := ⟨List.map Bytes.ofString⟩

end TestCoverage

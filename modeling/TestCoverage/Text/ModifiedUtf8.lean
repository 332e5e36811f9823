import TestCoverage.Text.Utf8

/-!
# Modified UTF-8

Class files and recorded probe hits write texts in a variant of UTF-8 without a zero byte:
U+0000 is written `C0 80`, and a character above U+FFFF as two surrogates of three bytes
each. `encode` writes this form. `decode` reads it, and also takes a byte string that is
plain UTF-8 for what it is; a lone surrogate or a cut sequence is refused.
-/

namespace TestCoverage.Text.ModifiedUtf8

open Utf8 (isContinuation continuation codePoint)

/-- Three bytes for a code point below U+10000, surrogates included. -/
def encodeUnit (n : Nat) : Bytes :=
  [UInt8.ofNat (0xE0 + n / 4096), continuation (n / 64), continuation n]

def encodeChar (c : Char) : Bytes :=
  let n := c.toNat
  if n = 0 then [0xC0, 0x80]
  else if n < 0x10000 then Utf8.encodeChar c
  else
    encodeUnit (0xD800 + (n - 0x10000) / 1024) ++ encodeUnit (0xDC00 + (n - 0x10000) % 1024)

def encode (text : List Char) : Bytes := text.flatMap encodeChar

/-- The text of a byte string in the strict form: no zero byte, and supplementary characters
as pairs of surrogates only. -/
def decodeStrict : Bytes → Option (List Char)
  | [] => some []
  | b₀ :: rest =>
    if b₀ = 0 then none
    else if b₀ < 0x80 then (decodeStrict rest).map (Char.ofNat b₀.toNat :: ·)
    else
      match rest with
      | [] => none
      | b₁ :: rest =>
        if b₀ = 0xC0 then
          if b₁ = 0x80 then (decodeStrict rest).map (Char.ofNat 0 :: ·) else none
        else if !isContinuation b₁ || b₀ < 0xC2 then none
        else if b₀ < 0xE0 then
          (decodeStrict rest).map
            (Char.ofNat (codePoint (b₀.toNat - 0xC0) [b₁]) :: ·)
        else
          match rest with
          | [] => none
          | b₂ :: rest =>
            if !isContinuation b₂ || 0xF0 ≤ b₀ || (b₀ == 0xE0 && b₁ < 0xA0) then none
            else if b₀ == 0xED && 0xA0 ≤ b₁ then
              match rest with
              | 0xED :: b₄ :: b₅ :: rest =>
                if b₁ < 0xB0 && 0xB0 ≤ b₄ && isContinuation b₄ && isContinuation b₅ then
                  let high := codePoint 0xD [b₁, b₂] - 0xD800
                  let low := codePoint 0xD [b₄, b₅] - 0xDC00
                  (decodeStrict rest).map (Char.ofNat (0x10000 + high * 1024 + low) :: ·)
                else none
              | _ => none
            else
              (decodeStrict rest).map
                (Char.ofNat (codePoint (b₀.toNat - 0xE0) [b₁, b₂]) :: ·)

/-- The text of a byte string: plain UTF-8 first, else the strict form. -/
def decode (bytes : Bytes) : Option String :=
  match Utf8.decode bytes with
  | some text => some (String.ofList text)
  | none => (decodeStrict bytes).map String.ofList

end TestCoverage.Text.ModifiedUtf8

import Mathlib
import TestCoverage.Proofs.Text.Utf8
import TestCoverage.Text.ModifiedUtf8

/-!
# Modified UTF-8 reads back what it writes

Modified UTF-8 differs from plain UTF-8 in U+0000 and in the characters above U+FFFF, and writes
these so that no plain UTF-8 reads them (`decode_special`). So a text in the modified form is
either plain UTF-8 and reads back at once (`plain_decode_encode`), or the strict form reads it
(`decodeStrict_encode`).
-/

namespace TestCoverage.Text

namespace ModifiedUtf8

open Utf8 (continuation isContinuation codePoint toNat_byte toNat_continuation)

/-- Plain UTF-8 does not read surrogates: their second byte is above 9F. -/
theorem decode_surrogate {n : Nat} (h : 0xD800 ≤ n) (h' : n ≤ 0xDFFF) (rest : Bytes) :
    Utf8.decode (encodeUnit n ++ rest) = none := by
  have hhigh : n / 4096 = 13 := by omega
  have hfollow : (Utf8.follow 2 0x80 0x9F 13
      (continuation (n / 64) :: continuation n :: rest)).1 = none :=
    Utf8.follow_continuation_of_lt (by simp; omega)
  have hnext : (Utf8.next (UInt8.ofNat (0xE0 + n / 4096))
      (continuation (n / 64) :: continuation n :: rest)).1 = none := by
    rw [Utf8.next, Utf8.lead?_three (by omega), hhigh]
    simp [hfollow]
  unfold encodeUnit
  rw [List.cons_append, List.cons_append, List.cons_append, List.nil_append, Utf8.decode, hnext]

/-- Plain UTF-8 does not read the characters that the modified form writes in its own way. -/
theorem decode_special {c : Char} (h : c.toNat = 0 ∨ 0x10000 ≤ c.toNat) (rest : Bytes) :
    Utf8.decode (encodeChar c ++ rest) = none := by
  have hvalid := Utf8.toNat_valid c
  unfold encodeChar
  dsimp only
  split
  · rw [List.cons_append, Utf8.decode]
    rfl
  · rw [if_neg (by omega), List.append_assoc]
    exact decode_surrogate (by omega) (by omega) _

/-- Plain UTF-8 reads a text in the modified form back, if it reads it at all. -/
theorem plain_decode_encode (text : List Char) :
    Utf8.decode (encode text) = some text ∨ Utf8.decode (encode text) = none := by
  induction text with
  | nil => exact Or.inl (by rw [encode, List.flatMap_nil, Utf8.decode])
  | cons c rest ih =>
    rw [encode, List.flatMap_cons, ← encode]
    by_cases h : c.toNat = 0 ∨ 0x10000 ≤ c.toNat
    · exact Or.inr (decode_special h _)
    · have hplain : encodeChar c = Utf8.encodeChar c := by
        unfold encodeChar
        dsimp only
        rw [if_neg (by omega), if_pos (by omega)]
      rw [hplain, Utf8.decode_encodeChar]
      rcases ih with ih | ih
      · exact Or.inl (by rw [ih, Option.map_some])
      · exact Or.inr (by rw [ih, Option.map_none])

/-! ## The strict form -/

theorem isContinuation_continuation (n : Nat) : isContinuation (continuation n) = true := by
  simp only [isContinuation, Bool.and_eq_true, decide_eq_true_eq, UInt8.le_iff_toNat_le,
    toNat_continuation]
  simp
  omega

theorem codePoint_one (bits m : Nat) :
    codePoint bits [continuation m] = bits * 64 + m % 64 := by
  have hmod : (0x80 + m % 64) % 64 = m % 64 := by omega
  simp only [codePoint, List.foldl_cons, List.foldl_nil, toNat_continuation, hmod]

theorem codePoint_two (bits m n : Nat) :
    codePoint bits [continuation m, continuation n] = (bits * 64 + m % 64) * 64 + n % 64 := by
  have hmod (k : Nat) : (0x80 + k % 64) % 64 = k % 64 := by omega
  simp only [codePoint, List.foldl_cons, List.foldl_nil, toNat_continuation, hmod]

theorem decodeStrict_zero (rest : Bytes) :
    decodeStrict (0xC0 :: 0x80 :: rest) = (decodeStrict rest).map (Char.ofNat 0 :: ·) := by
  rw [decodeStrict.eq_def]
  rfl

theorem decodeStrict_one {n : Nat} (h : n ≠ 0) (h' : n < 0x80) (rest : Bytes) :
    decodeStrict (UInt8.ofNat n :: rest) = (decodeStrict rest).map (Char.ofNat n :: ·) := by
  have hbyte := toNat_byte (n := n) (by omega)
  have hne : UInt8.ofNat n ≠ 0 := fun heq => h (by rw [← hbyte, heq]; rfl)
  have hlt : UInt8.ofNat n < 0x80 := by
    rw [UInt8.lt_iff_toNat_lt, hbyte]
    exact h'
  rw [decodeStrict.eq_def]
  dsimp only
  rw [if_neg hne, if_pos hlt, hbyte]

theorem decodeStrict_two {b₀ b₁ : UInt8} (h : 0xC2 ≤ b₀.toNat) (h' : b₀.toNat < 0xE0)
    (h₁ : isContinuation b₁ = true) (rest : Bytes) :
    decodeStrict (b₀ :: b₁ :: rest) =
      (decodeStrict rest).map (Char.ofNat (codePoint (b₀.toNat - 0xC0) [b₁]) :: ·) := by
  rw [decodeStrict.eq_def]
  simp only [← UInt8.toNat_inj, UInt8.lt_iff_toNat_lt, h₁, Bool.not_true, Bool.false_or,
    decide_eq_true_eq]
  simp only [UInt8.toNat_ofNat]
  rw [if_neg (by omega), if_neg (by omega), if_neg (by omega), if_neg (by omega),
    if_pos (by omega)]

/-- Three bytes are a character where they are no overlong form and no surrogate. -/
theorem decodeStrict_three {b₀ b₁ b₂ : UInt8} (h : 0xE0 ≤ b₀.toNat) (h' : b₀.toNat < 0xF0)
    (h₁ : isContinuation b₁ = true) (h₂ : isContinuation b₂ = true)
    (hlong : b₀.toNat = 0xE0 → 0xA0 ≤ b₁.toNat) (hsurrogate : b₀.toNat = 0xED → b₁.toNat < 0xA0)
    (rest : Bytes) :
    decodeStrict (b₀ :: b₁ :: b₂ :: rest) =
      (decodeStrict rest).map (Char.ofNat (codePoint (b₀.toNat - 0xE0) [b₁, b₂]) :: ·) := by
  rw [decodeStrict.eq_def]
  simp only [← UInt8.toNat_inj, UInt8.lt_iff_toNat_lt, UInt8.le_iff_toNat_le, h₁, h₂, Bool.not_true,
    Bool.false_or, decide_eq_true_eq, Bool.or_eq_true, Bool.and_eq_true, beq_iff_eq]
  simp only [UInt8.toNat_ofNat]
  rw [if_neg (by omega), if_neg (by omega), if_neg (by omega), if_neg (by omega),
    if_neg (by omega), if_neg (by omega), if_neg (by omega)]

theorem decodeStrict_pair {b₁ b₂ b₄ b₅ : UInt8} (h₁ : 0xA0 ≤ b₁.toNat) (h₁' : b₁.toNat < 0xB0)
    (h₂ : isContinuation b₂ = true) (h₄ : 0xB0 ≤ b₄.toNat) (h₄' : isContinuation b₄ = true)
    (h₅ : isContinuation b₅ = true) (rest : Bytes) :
    decodeStrict (0xED :: b₁ :: b₂ :: 0xED :: b₄ :: b₅ :: rest) =
      (decodeStrict rest).map (Char.ofNat (0x10000 + (codePoint 0xD [b₁, b₂] - 0xD800) * 1024 +
        (codePoint 0xD [b₄, b₅] - 0xDC00)) :: ·) := by
  have hcont : isContinuation b₁ = true := by
    simp only [isContinuation, Bool.and_eq_true, decide_eq_true_eq, UInt8.le_iff_toNat_le]
    simp only [UInt8.toNat_ofNat]
    omega
  rw [decodeStrict.eq_def]
  simp only [← UInt8.toNat_inj, UInt8.lt_iff_toNat_lt, UInt8.le_iff_toNat_le, hcont, h₂, h₄', h₅,
    Bool.not_true, Bool.false_or, decide_eq_true_eq, Bool.or_eq_true, Bool.and_eq_true, beq_iff_eq,
    and_true]
  simp only [UInt8.toNat_ofNat]
  rw [if_neg (by omega), if_neg (by omega), if_neg (by omega), if_neg (by omega),
    if_neg (by omega), if_neg (by omega)]
  rw [if_pos ⟨trivial, by omega⟩, if_pos (by omega)]

theorem decodeStrict_plain {c : Char} (h : c.toNat ≠ 0) (h' : c.toNat < 0x10000) (rest : Bytes) :
    decodeStrict (Utf8.encodeChar c ++ rest) = (decodeStrict rest).map (c :: ·) := by
  have hvalid := Utf8.toNat_valid c
  have hc := Char.ofNat_toNat c
  unfold Utf8.encodeChar
  generalize c.toNat = n at h h' hvalid hc
  dsimp only
  split
  · next hone =>
    rw [List.cons_append, List.nil_append, decodeStrict_one h hone, hc]
  split
  · next hone htwo =>
    have hlead := toNat_byte (n := 0xC0 + n / 64) (by omega)
    have hbits : codePoint (0xC0 + n / 64 - 0xC0) [continuation n] = n := by
      rw [codePoint_one]
      omega
    rw [List.cons_append, List.cons_append, List.nil_append,
      decodeStrict_two (by omega) (by omega) (isContinuation_continuation n), hlead, hbits, hc]
  · next hone htwo =>
    have hlead := toNat_byte (n := 0xE0 + n / 4096) (by omega)
    have hsecond := toNat_continuation (n / 64)
    have hbits :
        codePoint (0xE0 + n / 4096 - 0xE0) [continuation (n / 64), continuation n] = n := by
      rw [codePoint_two]
      omega
    rw [List.cons_append, List.cons_append, List.cons_append, List.nil_append,
      decodeStrict_three (by omega) (by omega) (isContinuation_continuation _)
        (isContinuation_continuation _) (by omega) (by omega), hlead, hbits, hc]

theorem decodeStrict_supplementary {c : Char} (h : 0x10000 ≤ c.toNat) (rest : Bytes) :
    decodeStrict (encodeChar c ++ rest) = (decodeStrict rest).map (c :: ·) := by
  have hvalid := Utf8.toNat_valid c
  have hc := Char.ofNat_toNat c
  unfold encodeChar encodeUnit
  generalize c.toNat = n at h hvalid hc
  dsimp only
  have hhigh : (0xD800 + (n - 0x10000) / 1024) / 4096 = 13 := by omega
  have hlow : (0xDC00 + (n - 0x10000) % 1024) / 4096 = 13 := by omega
  have hlead : UInt8.ofNat (0xE0 + 13) = 0xED := rfl
  have hsecond := toNat_continuation ((0xD800 + (n - 0x10000) / 1024) / 64)
  have hfifth := toNat_continuation ((0xDC00 + (n - 0x10000) % 1024) / 64)
  have hbits : 0x10000 +
      ((13 * 64 + (0xD800 + (n - 0x10000) / 1024) / 64 % 64) * 64 +
        (0xD800 + (n - 0x10000) / 1024) % 64 - 0xD800) * 1024 +
      ((13 * 64 + (0xDC00 + (n - 0x10000) % 1024) / 64 % 64) * 64 +
        (0xDC00 + (n - 0x10000) % 1024) % 64 - 0xDC00) = n := by
    omega
  rw [if_neg (by omega), if_neg (by omega), hhigh, hlow, hlead]
  simp only [List.cons_append, List.nil_append]
  rw [decodeStrict_pair (by omega) (by omega) (isContinuation_continuation _) (by omega)
    (isContinuation_continuation _) (isContinuation_continuation _), codePoint_two, codePoint_two,
    hbits, hc]

theorem decodeStrict_encode (text : List Char) : decodeStrict (encode text) = some text := by
  induction text with
  | nil => rfl
  | cons c rest ih =>
    rw [encode, List.flatMap_cons, ← encode]
    have hchar : decodeStrict (encodeChar c ++ encode rest) =
        (decodeStrict (encode rest)).map (c :: ·) := by
      by_cases hzero : c.toNat = 0
      · have hc : Char.ofNat 0 = c := by rw [← hzero, Char.ofNat_toNat]
        have hbytes : encodeChar c = [0xC0, 0x80] := by simp [encodeChar, hzero]
        rw [hbytes, List.cons_append, List.cons_append, List.nil_append, decodeStrict_zero, hc]
      · by_cases hhigh : c.toNat < 0x10000
        · have hplain : encodeChar c = Utf8.encodeChar c := by simp [encodeChar, hzero, hhigh]
          rw [hplain, decodeStrict_plain hzero hhigh]
        · exact decodeStrict_supplementary (by omega) _
    rw [hchar, ih, Option.map_some]

/-- A text in the modified form reads back. -/
theorem decode_encode (text : String) : decode (encode text.toList) = some text := by
  unfold decode
  rcases plain_decode_encode text.toList with hplain | hplain
  · rw [hplain]
    simp
  · rw [hplain, decodeStrict_encode]
    simp

end ModifiedUtf8

end TestCoverage.Text

import Mathlib
import TestCoverage.Text.Utf8

/-!
# UTF-8 reads back what it writes

`Utf8.next_encodeChar` reads one character off the front of a byte string, so whole texts read
back, strictly and with U+FFFD for what is not well formed (`Utf8.decode_encode`,
`Bytes.toText_ofString`).

A byte below 80 is a character by itself wherever it stands, also between parts that are not well
formed (`Utf8.mem_decodeLossy_iff`). What begins with another byte never reads as one of these
characters, and what is taken with it has no such byte.
-/

namespace TestCoverage

namespace Text

namespace Utf8

theorem toNat_byte {n : Nat} (h : n < 256) : (UInt8.ofNat n).toNat = n :=
  UInt8.toNat_ofNat_of_lt' h

theorem toNat_continuation (n : Nat) : (continuation n).toNat = 0x80 + n % 64 :=
  toNat_byte (by omega)

/-- A code point is no surrogate. -/
theorem toNat_valid (c : Char) : c.toNat < 0xD800 ∨ 0xDFFF < c.toNat ∧ c.toNat < 0x110000 :=
  c.valid

theorem follow_continuation {more : Nat} {low high : UInt8} {bits m : Nat} {rest : Bytes}
    (hlow : low.toNat ≤ 0x80 + m % 64) (hhigh : 0x80 + m % 64 ≤ high.toNat) :
    follow (more + 1) low high bits (continuation m :: rest) =
      follow more 0x80 0xBF (bits * 64 + m % 64) rest := by
  have hbyte := toNat_continuation m
  have hin : (low ≤ continuation m && continuation m ≤ high) = true := by
    simp only [Bool.and_eq_true, decide_eq_true_eq, UInt8.le_iff_toNat_le, hbyte]
    exact ⟨hlow, hhigh⟩
  have hmod : (0x80 + m % 64) % 64 = m % 64 := by omega
  rw [follow, if_pos hin, hbyte, hmod]

theorem follow_continuation_of_lt {more : Nat} {low high : UInt8} {bits m : Nat} {rest : Bytes}
    (hhigh : high.toNat < 0x80 + m % 64) :
    (follow (more + 1) low high bits (continuation m :: rest)).1 = none := by
  have hbyte := toNat_continuation m
  have hout : (low ≤ continuation m && continuation m ≤ high) = false := by
    simp only [Bool.and_eq_false_iff, decide_eq_false_iff_not, UInt8.le_iff_toNat_le, hbyte]
    omega
  simp [follow, hout]

/-! ## First bytes -/

theorem lead?_one {n : Nat} (h : n < 0x80) :
    lead? (UInt8.ofNat n) = some ⟨0, 0x80, 0xBF, n⟩ := by
  unfold lead?
  rw [toNat_byte (by omega), if_pos h]

theorem lead?_two {n : Nat} (h : 0x80 ≤ n) (h' : n < 0x800) :
    lead? (UInt8.ofNat (0xC0 + n / 64)) = some ⟨1, 0x80, 0xBF, n / 64⟩ := by
  unfold lead?
  rw [toNat_byte (by omega), if_neg (by omega), if_neg (by omega), if_pos (by omega),
    Nat.add_sub_cancel_left]

theorem lead?_three {n : Nat} (h : n < 0x10000) :
    lead? (UInt8.ofNat (0xE0 + n / 4096)) =
      some ⟨2, if 0xE0 + n / 4096 = 0xE0 then 0xA0 else 0x80,
        if 0xE0 + n / 4096 = 0xED then 0x9F else 0xBF, n / 4096⟩ := by
  unfold lead?
  rw [toNat_byte (by omega), if_neg (by omega), if_neg (by omega), if_neg (by omega),
    if_pos (by omega), Nat.add_sub_cancel_left]

theorem lead?_four {n : Nat} (h : n < 0x110000) :
    lead? (UInt8.ofNat (0xF0 + n / 262144)) =
      some ⟨3, if 0xF0 + n / 262144 = 0xF0 then 0x90 else 0x80,
        if 0xF0 + n / 262144 = 0xF4 then 0x8F else 0xBF, n / 262144⟩ := by
  unfold lead?
  rw [toNat_byte (by omega), if_neg (by omega), if_neg (by omega), if_neg (by omega),
    if_neg (by omega), if_pos (by omega), Nat.add_sub_cancel_left]

/-! ## Characters -/

theorem next_encodeChar (c : Char) (rest : Bytes) :
    ∃ b bytes, encodeChar c = b :: bytes ∧ next b (bytes ++ rest) = (some c, rest) := by
  have hvalid := toNat_valid c
  have hc := Char.ofNat_toNat c
  unfold encodeChar
  generalize c.toNat = n at hvalid hc
  dsimp only
  split
  · next hone =>
    refine ⟨_, _, rfl, ?_⟩
    rw [next, lead?_one hone]
    simp [follow, hc]
  split
  · next hone htwo =>
    have hbits : n / 64 * 64 + n % 64 = n := by omega
    refine ⟨_, _, rfl, ?_⟩
    rw [next, lead?_two (by omega) htwo]
    dsimp only [List.cons_append, List.nil_append]
    rw [follow_continuation (by simp) (by simp; omega), hbits]
    simp [follow, hc]
  split
  · next hone htwo hthree =>
    have hbits : (n / 4096 * 64 + n / 64 % 64) * 64 + n % 64 = n := by omega
    refine ⟨_, _, rfl, ?_⟩
    rw [next, lead?_three hthree]
    dsimp only [List.cons_append, List.nil_append]
    rw [follow_continuation (by split <;> simp; omega) (by split <;> simp <;> omega),
      follow_continuation (by simp) (by simp; omega), hbits]
    simp [follow, hc]
  · next hone htwo hthree =>
    have hbits : ((n / 262144 * 64 + n / 4096 % 64) * 64 + n / 64 % 64) * 64 + n % 64 = n := by
      omega
    refine ⟨_, _, rfl, ?_⟩
    rw [next, lead?_four (by omega)]
    dsimp only [List.cons_append, List.nil_append]
    rw [follow_continuation (by split <;> simp; omega) (by split <;> simp <;> omega),
      follow_continuation (by simp) (by simp; omega),
      follow_continuation (by simp) (by simp; omega), hbits]
    simp [follow, hc]

theorem decode_cons {b : UInt8} {rest left : Bytes} {c : Char}
    (h : next b rest = (some c, left)) : decode (b :: rest) = (decode left).map (c :: ·) := by
  rw [decode, h]

theorem decode_encodeChar (c : Char) (rest : Bytes) :
    decode (encodeChar c ++ rest) = (decode rest).map (c :: ·) := by
  obtain ⟨b, bytes, hbytes, hnext⟩ := next_encodeChar c rest
  rw [hbytes, List.cons_append, decode_cons hnext]

theorem decode_encode (text : List Char) : decode (encode text) = some text := by
  induction text with
  | nil => rw [encode, List.flatMap_nil, decode]
  | cons c rest ih =>
    rw [encode, List.flatMap_cons, ← encode, decode_encodeChar, ih, Option.map_some]


/-! ## Texts -/

theorem decodeLossy_cons {b : UInt8} {rest left : Bytes} {c : Char}
    (h : next b rest = (some c, left)) : decodeLossy (b :: rest) = c :: decodeLossy left := by
  rw [decodeLossy, h]
  rfl

theorem decodeLossy_encode (text : List Char) : decodeLossy (encode text) = text := by
  induction text with
  | nil => rw [encode, List.flatMap_nil, decodeLossy]
  | cons c rest ih =>
    obtain ⟨b, bytes, hbytes, hnext⟩ := next_encodeChar c (encode rest)
    rw [encode, List.flatMap_cons, ← encode, hbytes, List.cons_append, decodeLossy_cons hnext, ih]

/-! ## Characters of one byte -/

theorem encodeChar_of_lt {c : Char} (h : c.toNat < 0x80) :
    encodeChar c = [UInt8.ofNat c.toNat] := by
  unfold encodeChar
  exact if_pos h

/-- All bytes of the other characters are above 7F. -/
theorem le_of_mem_encodeChar {b : UInt8} {c : Char} (h : 0x80 ≤ c.toNat)
    (hmem : b ∈ encodeChar c) : 0x80 ≤ b.toNat := by
  have hvalid := toNat_valid c
  have hcontinuation {n : Nat} (hb : b = continuation n) : 0x80 ≤ b.toNat := by
    rw [hb, toNat_continuation]
    omega
  have hlead {n : Nat} (hn : 0x80 ≤ n) (hn' : n < 0x100) (hb : b = UInt8.ofNat n) :
      0x80 ≤ b.toNat := by
    rwa [hb, toNat_byte hn']
  unfold encodeChar at hmem
  dsimp only at hmem
  rw [if_neg (by omega)] at hmem
  split at hmem
  · rcases List.mem_pair.mp hmem with hb | hb
    · exact hlead (by omega) (by omega) hb
    · exact hcontinuation hb
  split at hmem
  · rcases List.mem_cons.mp hmem with hb | hmem
    · exact hlead (by omega) (by omega) hb
    rcases List.mem_pair.mp hmem with hb | hb <;> exact hcontinuation hb
  · rcases List.mem_cons.mp hmem with hb | hmem
    · exact hlead (by omega) (by omega) hb
    rcases List.mem_cons.mp hmem with hb | hmem
    · exact hcontinuation hb
    rcases List.mem_pair.mp hmem with hb | hb <;> exact hcontinuation hb

/-- A byte below 80 writes its own character only. -/
theorem eq_of_mem_encodeChar {b : UInt8} {c : Char} (hmem : b ∈ encodeChar c)
    (h : b.toNat < 0x80) : c = Char.ofNat b.toNat := by
  by_cases hc : c.toNat < 0x80
  · rw [encodeChar_of_lt hc] at hmem
    obtain rfl := List.mem_singleton.mp hmem
    rw [toNat_byte (by omega), Char.ofNat_toNat]
  · have hle := le_of_mem_encodeChar (Nat.not_lt.mp hc) hmem
    omega

/-- What a sequence takes after its first byte has no byte below 80. -/
theorem exists_follow (more : Nat) {low high : UInt8} (hlow : 0x80 ≤ low.toNat) (bits : Nat)
    (bytes : Bytes) :
    ∃ taken, bytes = taken ++ (follow more low high bits bytes).2 ∧
      ∀ b ∈ taken, 0x80 ≤ b.toNat := by
  induction more generalizing low high bits bytes with
  | zero => exact ⟨[], rfl, List.forall_mem_nil _⟩
  | succ more ih =>
    cases bytes with
    | nil => exact ⟨[], rfl, List.forall_mem_nil _⟩
    | cons b rest =>
      rw [follow]
      split
      · next hin =>
        rw [Bool.and_eq_true, decide_eq_true_eq, UInt8.le_iff_toNat_le] at hin
        obtain ⟨taken, hrest, htaken⟩ :=
          @ih 0x80 0xBF (by decide) (bits * 64 + b.toNat % 64) rest
        refine ⟨b :: taken, congrArg (b :: ·) hrest, List.forall_mem_cons.mpr ⟨?_, htaken⟩⟩
        exact hlow.trans hin.1
      · exact ⟨[], rfl, List.forall_mem_nil _⟩

/-- The bits of the first byte are the highest of the code point. -/
theorem le_of_follow {more : Nat} {low high : UInt8} {bits n : Nat} {bytes : Bytes}
    (h : (follow more low high bits bytes).1 = some n) : bits * 64 ^ more ≤ n := by
  induction more generalizing low high bits bytes with
  | zero =>
    obtain rfl := Option.some.inj h
    rw [pow_zero, Nat.mul_one]
  | succ more ih =>
    cases bytes with
    | nil => cases h
    | cons b rest =>
      rw [follow] at h
      split at h
      · calc bits * 64 ^ (more + 1) = bits * 64 * 64 ^ more := by ring
          _ ≤ (bits * 64 + b.toNat % 64) * 64 ^ more :=
            Nat.mul_le_mul_right _ (Nat.le_add_right _ _)
          _ ≤ n := ih h
      · cases h

/-- After a first byte without bits, those of the second byte are the highest. -/
theorem le_of_follow_zero {more : Nat} {low : UInt8} {n : Nat} {bytes : Bytes}
    (h : (follow (more + 1) low 0xBF 0 bytes).1 = some n) (hlow : 0x80 ≤ low.toNat) :
    (low.toNat - 0x80) * 64 ^ more ≤ n := by
  cases bytes with
  | nil => cases h
  | cons b rest =>
    rw [follow] at h
    split at h
    · next hin =>
      simp only [Bool.and_eq_true, decide_eq_true_eq, UInt8.le_iff_toNat_le,
        UInt8.toNat_ofNat] at hin
      have hbits : low.toNat - 0x80 ≤ 0 * 64 + b.toNat % 64 := by omega
      exact (Nat.mul_le_mul_right _ hbits).trans (le_of_follow h)
    · cases h

theorem next_of_lt {b : UInt8} (h : b.toNat < 0x80) (rest : Bytes) :
    next b rest = (some (Char.ofNat b.toNat), rest) := by
  unfold next lead?
  rw [if_pos h]
  rfl

theorem le_low_of_lead {b : UInt8} {lead : Lead} (h : lead? b = some lead) :
    0x80 ≤ lead.low.toNat := by
  unfold lead? at h
  dsimp only at h
  split at h
  · obtain rfl := Option.some.inj h
    exact Nat.le_refl _
  split at h
  · cases h
  split at h
  · obtain rfl := Option.some.inj h
    exact Nat.le_refl _
  split at h
  · obtain rfl := Option.some.inj h
    dsimp only
    split <;> decide
  split at h
  · obtain rfl := Option.some.inj h
    dsimp only
    split <;> decide
  · cases h

/-- What begins with a byte above 7F reads as no character below 80. -/
theorem le_of_next {b : UInt8} (h : 0x80 ≤ b.toNat) {rest : Bytes} {n : Nat} {lead : Lead}
    (hlead : lead? b = some lead)
    (hn : (follow lead.more lead.low lead.high lead.bits rest).1 = some n) : 0x80 ≤ n := by
  unfold lead? at hlead
  dsimp only at hlead
  rw [if_neg (by omega)] at hlead
  split at hlead
  · cases hlead
  split at hlead
  · obtain rfl := Option.some.inj hlead
    have hle := le_of_follow hn
    dsimp only at hle
    omega
  split at hlead
  · obtain rfl := Option.some.inj hlead
    by_cases hzero : b.toNat = 0xE0
    · dsimp only at hn
      rw [if_pos hzero, if_neg (by omega), hzero] at hn
      have hle := le_of_follow_zero hn (by decide)
      simp only [UInt8.toNat_ofNat] at hle
      omega
    · have hle := le_of_follow hn
      dsimp only at hle
      omega
  split at hlead
  · obtain rfl := Option.some.inj hlead
    by_cases hzero : b.toNat = 0xF0
    · dsimp only at hn
      rw [if_pos hzero, if_neg (by omega), hzero] at hn
      have hle := le_of_follow_zero hn (by decide)
      simp only [UInt8.toNat_ofNat] at hle
      omega
    · have hle := le_of_follow hn
      dsimp only at hle
      omega
  · cases hlead

/-- What begins with a byte above 7F and the bytes that are taken with it make no character
below 80. -/
theorem next_of_le {b : UInt8} (h : 0x80 ≤ b.toNat) (rest : Bytes) {c : Char} (hzero : c.toNat ≠ 0)
    (hc : c.toNat < 0x80) :
    (next b rest).1.getD '\uFFFD' ≠ c ∧
      ∃ taken, rest = taken ++ (next b rest).2 ∧ ∀ b ∈ taken, 0x80 ≤ b.toNat := by
  have hmark : '\uFFFD' ≠ c := by
    rintro rfl
    revert hc
    decide
  cases hlead : lead? b with
  | none =>
    rw [next, hlead]
    exact ⟨hmark, [], rfl, List.forall_mem_nil _⟩
  | some lead =>
    have hlow := le_low_of_lead hlead
    rw [next, hlead]
    refine ⟨?_, exists_follow lead.more hlow lead.bits rest⟩
    dsimp only
    cases hn : (follow lead.more lead.low lead.high lead.bits rest).1 with
    | none => exact hmark
    | some n =>
      have hle := le_of_next h hlead hn
      rintro rfl
      rw [Option.map_some, Option.getD_some] at hzero hc
      have hvalue := Char.toNat_ofNat n
      split at hvalue <;> omega

/-- A character below 80 is read exactly where its byte stands. -/
theorem mem_decodeLossy_iff {c : Char} (hzero : c.toNat ≠ 0) (hc : c.toNat < 0x80)
    (bytes : Bytes) : c ∈ decodeLossy bytes ↔ UInt8.ofNat c.toNat ∈ bytes := by
  induction bytes using decodeLossy.induct with
  | case1 => simp [decodeLossy]
  | case2 b rest ih =>
    rw [decodeLossy, List.mem_cons, List.mem_cons, ih]
    by_cases hb : b.toNat < 0x80
    · have hchar : c = Char.ofNat b.toNat ↔ UInt8.ofNat c.toNat = b := by
        constructor
        · intro h
          have hvalid : b.toNat.isValidChar := .inl (by omega)
          rw [h, Char.toNat_ofNat, if_pos hvalid, UInt8.ofNat_toNat]
        · rintro rfl
          rw [toNat_byte (by omega), Char.ofNat_toNat]
      rw [next_of_lt hb, Option.getD_some, hchar]
    · obtain ⟨hne, taken, hrest, htaken⟩ := next_of_le (Nat.not_lt.mp hb) rest hzero hc
      have hbyte : (UInt8.ofNat c.toNat).toNat = c.toNat := toNat_byte (by omega)
      have hfirst : UInt8.ofNat c.toNat ≠ b := by
        rintro rfl
        omega
      have hnot : UInt8.ofNat c.toNat ∉ taken := by
        intro hmem
        have hle := htaken _ hmem
        omega
      constructor
      · rintro (h | h)
        · exact absurd h.symm hne
        · rw [hrest]
          exact .inr (List.mem_append_right _ h)
      · rintro (h | h)
        · exact absurd h hfirst
        · rw [hrest] at h
          exact .inr ((List.mem_append.mp h).resolve_left hnot)

end Utf8

end Text

/-! ## Byte strings that are text -/

namespace Bytes

theorem toText_ofString (text : String) : (ofString text).toText = text := by
  rw [toText, ofString, Text.Utf8.decodeLossy_encode, String.ofList_toList]

theorem ofString_injective : Function.Injective ofString :=
  Function.LeftInverse.injective toText_ofString

/-- The bytes are the UTF-8 of a text, and nothing is lost where they are read as one. -/
def IsText (bytes : Bytes) : Prop := ofString bytes.toText = bytes

instance (bytes : Bytes) : Decidable bytes.IsText :=
  inferInstanceAs (Decidable (ofString bytes.toText = bytes))

theorem isText_iff {bytes : Bytes} : bytes.IsText ↔ ∃ text, bytes = ofString text := by
  constructor
  · intro h
    exact ⟨bytes.toText, h.symm⟩
  · rintro ⟨text, rfl⟩
    exact congrArg ofString (toText_ofString text)

/-- A character below 80 is in the text exactly where its byte is. -/
theorem mem_toText_iff {c : Char} (hzero : c.toNat ≠ 0) (hc : c.toNat < 0x80) (bytes : Bytes) :
    c ∈ bytes.toText.toList ↔ UInt8.ofNat c.toNat ∈ bytes := by
  rw [toText, String.toList_ofList]
  exact Text.Utf8.mem_decodeLossy_iff hzero hc bytes

end Bytes

end TestCoverage

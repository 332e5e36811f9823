import Mathlib
import TestCoverage.Archive.Inflate
import TestCoverage.Bytes

/-!
# Inflating block by block

What a step of inflating makes of a state (`Inflater.Yields`) is put together from what its parts
make of it, and a stream from its blocks (`Inflater.Yields.blocks_cons`, `inflate_of_yields`). A
block of stored bytes appends these (`Inflater.yields_block_stored`); a block in the fixed codes is
one in the two codes as they are written out here (`Inflater.yields_block_fixed`).
-/

namespace TestCoverage.Archive

/-- The state with this input and output, as lists of bytes. -/
def InflateState.of (input : Bytes) (position : Nat) (output : Bytes) (bound : Nat) :
    InflateState :=
  ⟨⟨⟨input⟩⟩, position, ⟨⟨output⟩⟩, bound⟩

instance : DecidableEq InflateState := fun first second =>
  decidable_of_iff (first.position = second.position ∧
      first.output.data.toList = second.output.data.toList ∧
        first.input.data.toList = second.input.data.toList ∧ first.bound = second.bound) <| by
    obtain ⟨⟨⟨input⟩⟩, position, ⟨⟨output⟩⟩, bound⟩ := first
    obtain ⟨⟨⟨input'⟩⟩, position', ⟨⟨output'⟩⟩, bound'⟩ := second
    simp only [InflateState.mk.injEq, ByteArray.mk.injEq, Array.mk.injEq]
    tauto

namespace Inflater

variable {α β : Type}

/-- The step succeeds with this value and leaves this state. -/
def Yields (inflater : Inflater α) (state : InflateState) (value : α) (next : InflateState) :
    Prop :=
  inflater.run state = some (value, next)

instance [DecidableEq α] (inflater : Inflater α) (state : InflateState) (value : α)
    (next : InflateState) : Decidable (Yields inflater state value next) :=
  inferInstanceAs (Decidable (_ = _))

theorem yields_pure (value : α) (state : InflateState) :
    Yields (pure value : Inflater α) state value state := rfl

theorem yields_bind_iff {first : Inflater α} {second : α → Inflater β}
    {state last : InflateState} {b : β} :
    Yields (first >>= second) state b last ↔
      ∃ a middle, Yields first state a middle ∧ Yields (second a) middle b last := by
  unfold Yields
  rw [StateT.run_bind]
  constructor
  · intro h
    obtain ⟨⟨a, middle⟩, hfirst, hsecond⟩ := Option.bind_eq_some_iff.mp h
    exact ⟨a, middle, hfirst, hsecond⟩
  · rintro ⟨a, middle, hfirst, hsecond⟩
    exact Option.bind_eq_some_iff.mpr ⟨(a, middle), hfirst, hsecond⟩

theorem Yields.bind {first : Inflater α} {second : α → Inflater β}
    {state middle last : InflateState} {a : α} {b : β} (hfirst : Yields first state a middle)
    (hsecond : Yields (second a) middle b last) : Yields (first >>= second) state b last :=
  yields_bind_iff.mpr ⟨a, middle, hfirst, hsecond⟩

/-! ## Bits -/

variable {input output : Bytes} {position bound : Nat}

theorem yields_bit {i k : Nat} {byte : UInt8} (h : input[i]? = some byte) (hk : k < 8) :
    Yields bit (.of input (8 * i + k) output bound) (byte.toNat >>> k % 2)
      (.of input (8 * i + (k + 1)) output bound) := by
  have hbyte : (⟨⟨input⟩⟩ : ByteArray)[(8 * i + k) / 8]? = some byte := by
    have hi : (8 * i + k) / 8 = i := by omega
    rw [hi]
    obtain ⟨hlt, hget⟩ := List.getElem?_eq_some_iff.mp h
    exact (getElem?_pos (⟨⟨input⟩⟩ : ByteArray) i hlt).trans (congrArg some hget)
  have hshift : (8 * i + k) % 8 = k := by omega
  unfold Yields bit
  simp only [StateT.run_bind, StateT.run_get, Option.pure_def, Option.bind_eq_bind,
    Option.bind_some, InflateState.of]
  rw [hbyte]
  change some (byte.toNat >>> ((8 * i + k) % 8) % 2, _) = _
  rw [hshift]
  rfl

/-- Bits of one byte. -/
theorem yields_bits {i k count : Nat} {byte : UInt8} (h : input[i]? = some byte)
    (hk : k + count ≤ 8) :
    Yields (bits count) (.of input (8 * i + k) output bound) (byte.toNat >>> k % 2 ^ count)
      (.of input (8 * i + (k + count)) output bound) := by
  induction count generalizing k with
  | zero =>
    rw [pow_zero, Nat.mod_one]
    exact yields_pure 0 _
  | succ count ih =>
    have hrest := ih (show k + 1 + count ≤ 8 by omega)
    have hvalue : byte.toNat >>> k % 2 ^ (count + 1) =
        byte.toNat >>> k % 2 + 2 * (byte.toNat >>> (k + 1) % 2 ^ count) := by
      rw [pow_succ', Nat.mod_mul, Nat.shiftRight_succ]
    rw [hvalue, show k + (count + 1) = k + 1 + count by omega]
    exact (yields_bit h (by omega)).bind (hrest.bind (yields_pure _ _))

theorem yields_byte {i : Nat} {byte : UInt8} (h : input[i]? = some byte) :
    Yields (bits 8) (.of input (8 * i) output bound) byte.toNat
      (.of input (8 * (i + 1)) output bound) := by
  have hbits : Yields (bits 8) (.of input (8 * i + 0) output bound) _ _ :=
    yields_bits h (Nat.le_refl (0 + 8))
  rwa [Nat.shiftRight_zero, Nat.mod_eq_of_lt byte.toNat_lt] at hbits

/-- Bits that are taken in two parts are taken at once. -/
theorem Yields.bits_add {first second low high : Nat} {state middle last : InflateState}
    (hlow : Yields (bits first) state low middle) (hhigh : Yields (bits second) middle high last) :
    Yields (bits (first + second)) state (low + 2 ^ first * high) last := by
  induction first generalizing state low with
  | zero =>
    obtain ⟨rfl, rfl⟩ := Prod.mk.inj (Option.some.inj hlow)
    rwa [Nat.zero_add, Nat.zero_add, pow_zero, Nat.one_mul]
  | succ first ih =>
    obtain ⟨b, next, hbit, hlow⟩ := yields_bind_iff.mp hlow
    obtain ⟨rest, other, hrest, hlow⟩ := yields_bind_iff.mp hlow
    obtain ⟨rfl, rfl⟩ := Prod.mk.inj (Option.some.inj hlow)
    have hvalue : b + 2 * rest + 2 ^ (first + 1) * high = b + 2 * (rest + 2 ^ first * high) := by
      ring
    rw [hvalue, Nat.add_right_comm]
    exact hbit.bind ((ih hrest).bind (yields_pure _ _))

/-! ## Stored blocks -/

theorem yields_rawBytes {i : Nat} {piece rest : Bytes} (h : input.drop i = piece ++ rest) :
    Yields (rawBytes piece.length) (.of input (8 * i) output bound) ()
      (.of input (8 * (i + piece.length)) (output ++ piece) bound) := by
  induction piece generalizing i output with
  | nil =>
    rw [List.append_nil]
    exact yields_pure () _
  | cons byte piece ih =>
    have hbyte : input[i]? = some byte := by
      rw [← List.head?_drop, h]
      rfl
    have hrest : input.drop (i + 1) = piece ++ rest := by
      rw [← List.drop_drop, h]
      rfl
    have hemit : Yields (emit (UInt8.ofNat byte.toNat)) (.of input (8 * (i + 1)) output bound) ()
        (.of input (8 * (i + 1)) (output ++ [byte]) bound) := by
      rw [UInt8.ofNat_toNat]
      exact congrArg (fun output => some ((), InflateState.mk ⟨⟨input⟩⟩ _ output bound))
        (congrArg ByteArray.mk (List.push_toArray output byte))
    have hmore := @ih (output ++ [byte]) (i + 1) hrest
    rw [List.append_assoc, Nat.add_assoc, Nat.add_comm 1] at hmore
    exact (yields_byte hbyte).bind (hemit.bind hmore)

/-- A block of stored bytes begins at the next whole byte with its length, twice. -/
theorem yields_stored {i : Nat} {l₀ l₁ n₀ n₁ : UInt8} {piece rest : Bytes}
    (hposition : (position + 7) / 8 = i)
    (h : input.drop i = l₀ :: l₁ :: n₀ :: n₁ :: (piece ++ rest))
    (hlength : l₀.toNat + 256 * l₁.toNat = piece.length)
    (hinverse : piece.length + (n₀.toNat + 256 * n₁.toNat) = 0xFFFF) :
    Yields stored (.of input position output bound) ()
      (.of input (8 * (i + 4 + piece.length)) (output ++ piece) bound) := by
  have hdrop (k : Nat) : input[i + k]? = (input.drop i)[k]? := List.getElem?_drop.symm
  have hfirst : Yields (bits 16) (.of input (8 * i) output bound) piece.length
      (.of input (8 * (i + 1 + 1)) output bound) := by
    rw [← hlength]
    refine Yields.bits_add (yields_byte ?_) (yields_byte ?_)
    · rw [← Nat.add_zero i, hdrop, h]
      rfl
    · rw [hdrop, h]
      rfl
  have hsecond : Yields (bits 16) (.of input (8 * (i + 1 + 1)) output bound)
      (n₀.toNat + 256 * n₁.toNat) (.of input (8 * (i + 1 + 1 + 1 + 1)) output bound) := by
    refine Yields.bits_add (yields_byte ?_) (yields_byte ?_)
    · rw [Nat.add_assoc, hdrop, h]
      rfl
    · rw [Nat.add_assoc, Nat.add_assoc, hdrop, h]
      rfl
  have hraw : Yields (rawBytes piece.length) (.of input (8 * (i + 4)) output bound) ()
      (.of input (8 * (i + 4 + piece.length)) (output ++ piece) bound) := by
    have hpiece : input.drop (i + 4) = piece ++ rest := by
      rw [← List.drop_drop, h]
      rfl
    exact yields_rawBytes hpiece
  have halign : Yields (modify fun state => { state with position := (state.position + 7) / 8 * 8 })
      (.of input position output bound) () (.of input (8 * i) output bound) := by
    rw [← hposition, Nat.mul_comm]
    rfl
  unfold stored
  refine halign.bind (hfirst.bind (hsecond.bind ?_))
  rw [if_neg (not_not_intro hinverse)]
  exact (yields_pure _ _).bind hraw

/-! ## The fixed codes -/

/-- A complete code comes of the lengths that it counts, if it has their symbols in order. -/
theorem yields_ofLengths {lengths : List Nat} {code : Code} (state : InflateState)
    (hcounts : (wordLengths.map fun length => lengths.count length) = code.counts)
    (hsymbols : (wordLengths.flatMap fun length =>
      (lengths.zipIdx.filter (·.1 == length)).map (·.2)) = code.symbols.toList)
    (hcomplete : (code.counts.zip wordLengths).foldl
      (fun sum (n, length) => sum + n <<< (15 - length)) 0 = 1 <<< 15) :
    Yields (Code.ofLengths lengths) state code state := by
  unfold Code.ofLengths
  dsimp only
  rw [hcounts, hsymbols, Array.toArray_toList, if_neg fun h => h.1 hcomplete]
  exact yields_pure code state

/-- The fixed code of bytes and lengths. -/
def fixedLiteralCode : Code where
  counts := [0, 0, 0, 0, 0, 0, 24, 152, 112, 0, 0, 0, 0, 0, 0]
  symbols := (List.range' 256 24 ++ (List.range' 0 144 ++ List.range' 280 8) ++
    List.range' 144 112).toArray

/-- The fixed code of distances. -/
def fixedDistanceCode : Code where
  counts := [0, 0, 0, 0, 32, 0, 0, 0, 0, 0, 0, 0, 0, 0, 0]
  symbols := (List.range 32).toArray

theorem filter_zipIdx_replicate (count length i other : Nat) :
    (((List.replicate count length).zipIdx i).filter (·.1 == other)).map (·.2) =
      if length = other then List.range' i count else [] := by
  induction count generalizing i with
  | zero => simp
  | succ count ih =>
    rw [List.replicate_succ, List.zipIdx_cons, List.filter_cons, List.range'_succ]
    by_cases hlength : length = other
    · have hhead : (length == other) = true := beq_iff_eq.mpr hlength
      rw [if_pos hhead, List.map_cons, ih, if_pos hlength, if_pos hlength]
    · have hhead : ¬ (length == other) = true := fun h => hlength (beq_iff_eq.mp h)
      rw [if_neg hhead, ih, if_neg hlength, if_neg hlength]

/-- The symbols whose words have a length, by the four stretches of the table of lengths. -/
theorem fixedLiterals_of_length (length : Nat) :
    (fixedLiterals.zipIdx.filter (·.1 == length)).map (·.2) =
      (if 8 = length then List.range' 0 144 else []) ++
        ((if 9 = length then List.range' 144 112 else []) ++
          ((if 7 = length then List.range' 256 24 else []) ++
            if 8 = length then List.range' 280 8 else [])) := by
  simp only [fixedLiterals, List.append_assoc, List.zipIdx_append, List.filter_append,
    List.map_append, filter_zipIdx_replicate, List.length_replicate]

theorem yields_fixedLiterals (state : InflateState) :
    Yields (Code.ofLengths fixedLiterals) state fixedLiteralCode state := by
  have hcounts : (wordLengths.map fun length => fixedLiterals.count length) =
      fixedLiteralCode.counts := by
    decide +kernel
  have hsymbols : (wordLengths.flatMap fun length =>
      (fixedLiterals.zipIdx.filter (·.1 == length)).map (·.2)) =
        fixedLiteralCode.symbols.toList := by
    simp only [fixedLiterals_of_length]
    rfl
  exact yields_ofLengths state hcounts hsymbols rfl

theorem yields_fixedDistances (state : InflateState) :
    Yields (Code.ofLengths fixedDistances) state fixedDistanceCode state := by
  have hcounts : (wordLengths.map fun length => fixedDistances.count length) =
      fixedDistanceCode.counts := by
    decide +kernel
  have hsymbols : (wordLengths.flatMap fun length =>
      (fixedDistances.zipIdx.filter (·.1 == length)).map (·.2)) =
        fixedDistanceCode.symbols.toList := by
    simp only [fixedDistances, filter_zipIdx_replicate]
    rfl
  exact yields_ofLengths state hcounts hsymbols rfl

/-! ## Blocks -/

/-- Takes one block and says whether it is the last one. -/
def block (bitCount : Nat) : Inflater Nat := do
  let last ← bit
  let kind ← bits 2
  match kind with
  | 0 => stored
  | 1 =>
    symbols (← Code.ofLengths fixedLiterals) (← Code.ofLengths fixedDistances) (bitCount + 1)
  | 2 =>
    let (literals, distances) ← ownCodes (bitCount + 1)
    symbols literals distances (bitCount + 1)
  | _ => failure
  return last

theorem blocks_succ (bitCount steps : Nat) :
    blocks bitCount (steps + 1) = (do
      let last ← block bitCount
      if last = 1 then return ()
      else if ← isFull then return ()
      else blocks bitCount steps) := by
  rw [blocks]
  unfold block
  simp only [bind_assoc]
  congr 1
  funext last
  congr 1
  funext kind
  split <;> simp

variable {bitCount steps last : Nat} {state opened told next ending : InflateState}

/-- The head of a block of stored bytes that is not the last one: how many they are, twice. -/
def storedHead (length : Nat) : Bytes :=
  [0, .ofNat length, .ofNat (length / 256), .ofNat (0xFFFF - length),
    .ofNat ((0xFFFF - length) / 256)]

/-- A block that begins with the head of a block of stored bytes appends these. -/
theorem yields_block_stored {i : Nat} {piece rest : Bytes} (hlength : piece.length ≤ 0xFFFF)
    (h : input.drop i = storedHead piece.length ++ (piece ++ rest)) :
    Yields (block bitCount) (.of input (8 * i) output bound) 0
      (.of input (8 * (i + 5 + piece.length)) (output ++ piece) bound) := by
  have hzero : input[i]? = some 0 := by
    rw [← List.head?_drop, h]
    rfl
  have hlast : Yields bit (.of input (8 * i) output bound) 0
      (.of input (8 * i + 1) output bound) := yields_bit hzero (by omega : 0 < 8)
  have hkind : Yields (bits 2) (.of input (8 * i + 1) output bound) 0
      (.of input (8 * i + 3) output bound) := yields_bits hzero (by omega : 1 + 2 ≤ 8)
  have hhead : input.drop (i + 1) = .ofNat piece.length :: .ofNat (piece.length / 256) ::
      .ofNat (0xFFFF - piece.length) :: .ofNat ((0xFFFF - piece.length) / 256) ::
        (piece ++ rest) := by
    rw [← List.drop_drop, h]
    rfl
  have hstored := @yields_stored input output (8 * i + 3) bound (i + 1) _ _ _ _ piece rest
    (by omega) hhead
    (by rw [UInt8.toNat_ofNat', UInt8.toNat_ofNat']; omega)
    (by rw [UInt8.toNat_ofNat', UInt8.toNat_ofNat']; omega)
  exact hlast.bind (hkind.bind (hstored.bind (yields_pure 0 _)))

theorem yields_symbols {literals distances : List Nat} {literalCode distanceCode : Code}
    {value : α} (hliterals : Yields (Code.ofLengths literals) told literalCode told)
    (hdistances : Yields (Code.ofLengths distances) told distanceCode told)
    (hsymbols : Yields (symbols literalCode distanceCode steps) told () next) :
    Yields (do
        symbols (← Code.ofLengths literals) (← Code.ofLengths distances) steps
        return value) told value next :=
  hliterals.bind (hdistances.bind (hsymbols.bind (yields_pure value next)))

theorem yields_block_fixed (hlast : Yields bit state last opened)
    (hkind : Yields (bits 2) opened 1 told)
    (hsymbols : Yields (symbols fixedLiteralCode fixedDistanceCode (bitCount + 1)) told () next) :
    Yields (block bitCount) state last next :=
  hlast.bind (hkind.bind
    (yields_symbols (yields_fixedLiterals told) (yields_fixedDistances told) hsymbols))

theorem Yields.blocks_last (h : Yields (block bitCount) state 1 next) :
    Yields (blocks bitCount (steps + 1)) state () next := by
  rw [blocks_succ]
  refine h.bind ?_
  rw [if_pos rfl]
  exact yields_pure () next

theorem Yields.blocks_cons (h : Yields (block bitCount) state last next) (hlast : last ≠ 1)
    (hfull : next.output.size ≤ next.bound)
    (hrest : Yields (blocks bitCount steps) next () ending) :
    Yields (blocks bitCount (steps + 1)) state () ending := by
  have hnot : Yields isFull next false next :=
    congrArg (fun full => some (full, next)) (decide_eq_false (Nat.not_lt.mpr hfull))
  rw [blocks_succ]
  refine h.bind ?_
  rw [if_neg hlast]
  refine hnot.bind ?_
  exact hrest

end Inflater

theorem inflate_of_yields {stream output : Bytes} {position bound : Nat}
    (h : Inflater.Yields (Inflater.blocks (8 * stream.length) (8 * stream.length + 1))
      (.of stream 0 [] bound) () (.of stream position output bound)) :
    inflate bound ⟨⟨stream⟩⟩ = some ⟨⟨output⟩⟩ :=
  congrArg (Option.map fun (result : Unit × InflateState) => result.2.output) h

end TestCoverage.Archive

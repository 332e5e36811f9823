/-!
# Inflating compressed data

The format "deflate": blocks of stored bytes, or of symbols in Huffman codes, where a symbol
is a byte or the length of a piece that is copied from what was inflated before. Bits are
taken from each byte lowest first.

`inflate` gives the data of a whole stream. A stream that breaks the format or is cut off has
no data. Inflating may make much of little, so it stops once there is more data than a bound.
-/

namespace TestCoverage.Archive

/-- The stream, the position of its next bit, and what was inflated so far. No more is asked for
once that is larger than the bound. -/
structure InflateState where
  input : ByteArray
  position : Nat
  output : ByteArray
  bound : Nat

/-- A step of inflating, which fails where the stream breaks the format or is cut off. -/
abbrev Inflater (α : Type) := StateT InflateState Option α

namespace Inflater

def bit : Inflater Nat := do
  let state ← get
  match state.input[state.position / 8]? with
  | none => failure
  | some byte =>
    set { state with position := state.position + 1 }
    return byte.toNat >>> (state.position % 8) % 2

/-- Takes a number of some bits, the lowest first. -/
def bits : Nat → Inflater Nat
  | 0 => return 0
  | count + 1 => do
    let low ← bit
    return low + 2 * (← bits count)

def emit (byte : UInt8) : Inflater Unit :=
  modify fun state => { state with output := state.output.push byte }

/-! ## Huffman codes -/

/-- A canonical Huffman code: how many symbols have each length from one to fifteen, and the
symbols by ascending length. -/
structure Code where
  counts : List Nat
  symbols : Array Nat
deriving Repr

def wordLengths : List Nat := List.range' 1 15

/-- The code in which each symbol has a word of the given length, or none if that is zero. A
code must be complete, unless it has no word at all or only one of a single bit. -/
def Code.ofLengths (lengths : List Nat) : Inflater Code :=
  let counts := wordLengths.map fun length => lengths.count length
  let used : Nat := counts.foldl (· + ·) 0
  let total : Nat :=
    (counts.zip wordLengths).foldl (fun sum (n, length) => sum + n <<< (15 - length)) 0
  if total ≠ 1 <<< 15 ∧ used ≠ 0 ∧ ¬ (total = 1 <<< 14 ∧ used = 1) then failure
  else
    let symbols := wordLengths.flatMap fun length =>
      (lengths.zipIdx.filter (·.1 == length)).map (·.2)
    return ⟨counts, symbols.toArray⟩

/-- Takes the rest of a code word, whose bits so far write `word`. `first` is the first word
of the present length and `index` the position of its symbol. -/
def symbolFrom (symbols : Array Nat) : List Nat → Nat → Nat → Nat → Inflater Nat
  | [], _, _, _ => failure
  | count :: counts, word, first, index => do
    let word := word + (← bit)
    if word < first + count then
      match symbols[index + (word - first)]? with
      | some symbol => return symbol
      | none => failure
    else symbolFrom symbols counts (word * 2) ((first + count) * 2) (index + count)

def Code.symbol (code : Code) : Inflater Nat := symbolFrom code.symbols code.counts 0 0 0

/-! ## Blocks -/

/-- The least length that each length symbol stands for, with the number of extra bits. -/
def lengthTable : Array (Nat × Nat) :=
  #[(3, 0), (4, 0), (5, 0), (6, 0), (7, 0), (8, 0), (9, 0), (10, 0), (11, 1), (13, 1), (15, 1),
    (17, 1), (19, 2), (23, 2), (27, 2), (31, 2), (35, 3), (43, 3), (51, 3), (59, 3), (67, 4),
    (83, 4), (99, 4), (115, 4), (131, 5), (163, 5), (195, 5), (227, 5), (258, 0)]

/-- The least distance that each distance symbol stands for, with the number of extra
bits. -/
def distanceTable : Array (Nat × Nat) :=
  #[(1, 0), (2, 0), (3, 0), (4, 0), (5, 1), (7, 1), (9, 2), (13, 2), (17, 3), (25, 3), (33, 4),
    (49, 4), (65, 5), (97, 5), (129, 6), (193, 6), (257, 7), (385, 7), (513, 8), (769, 8),
    (1025, 9), (1537, 9), (2049, 10), (3073, 10), (4097, 11), (6145, 11), (8193, 12),
    (12289, 12), (16385, 13), (24577, 13)]

/-- Takes the extra bits that a table asks for. -/
def extended (table : Array (Nat × Nat)) (symbol : Nat) : Inflater Nat :=
  match table[symbol]? with
  | some (least, extra) => return least + (← bits extra)
  | none => failure

/-- The bytes with `count` more, each a copy of the one that stands `distance` back from it. What
is before the beginning counts as zeros. A copied piece repeats itself, so that the next one may
be twice as long. -/
def copyBack (bytes : ByteArray) (distance count : Nat) : ByteArray :=
  if count = 0 ∨ distance = 0 then bytes
  else if distance ≤ bytes.size then
    let start := bytes.size - distance
    let piece := bytes.extract start (start + min distance count)
    copyBack (bytes ++ piece) (2 * distance) (count - min distance count)
  else
    let zeros := min (distance - bytes.size) count
    copyBack (bytes ++ ByteArray.mk (Array.replicate zeros 0)) distance (count - zeros)
termination_by count

theorem size_copyBack (bytes : ByteArray) {distance : Nat} (h : 0 < distance) (count : Nat) :
    (copyBack bytes distance count).size = bytes.size + count := by
  fun_induction copyBack bytes distance count with
  | case1 => grind
  | case2 bytes distance count _ hd start piece ih =>
    rw [ih (by omega), ByteArray.size_append, ByteArray.size_extract]
    omega
  | case3 bytes distance count _ hd zeros ih =>
    rw [ih h, ByteArray.size_append]
    simp only [ByteArray.size, Array.size_replicate]
    omega

def copy (distance count : Nat) : Inflater Unit :=
  modify fun state => { state with output := copyBack state.output distance count }

/-- There is more data than asked for. -/
def isFull : Inflater Bool := do
  let state ← get
  return state.bound < state.output.size

/-- Takes the symbols of a block up to its end. Every symbol takes at least one bit, so as
many steps suffice as the stream has bits. -/
def symbols (literals distances : Code) : Nat → Inflater Unit
  | 0 => failure
  | steps + 1 => do
    if ← isFull then return ()
    let symbol ← literals.symbol
    if symbol < 256 then
      emit (UInt8.ofNat symbol)
      symbols literals distances steps
    else if symbol = 256 then return ()
    else
      let length ← extended lengthTable (symbol - 257)
      let distance ← extended distanceTable (← distances.symbol)
      copy distance length
      symbols literals distances steps

def rawBytes : Nat → Inflater Unit
  | 0 => return ()
  | count + 1 => do
    emit (UInt8.ofNat (← bits 8))
    rawBytes count

/-- Takes a block of stored bytes, which begins at the next whole byte. -/
def stored : Inflater Unit := do
  modify fun state => { state with position := (state.position + 7) / 8 * 8 }
  let length ← bits 16
  let inverse ← bits 16
  if length + inverse ≠ 0xFFFF then failure
  rawBytes length

/-- The lengths of the fixed code of bytes and lengths. -/
def fixedLiterals : List Nat :=
  List.replicate 144 8 ++ List.replicate 112 9 ++ List.replicate 24 7 ++ List.replicate 8 8

def fixedDistances : List Nat := List.replicate 32 5

/-- Takes code lengths up to a total number. Lengths are themselves in a code, with symbols
for repetition. -/
def codeLengths (code : Code) (total : Nat) : Nat → List Nat → Inflater (List Nat)
  | 0, _ => failure
  | steps + 1, taken =>
    if total < taken.length then failure
    else if taken.length = total then return taken.reverse
    else do
      let symbol ← code.symbol
      if symbol < 16 then codeLengths code total steps (symbol :: taken)
      else if symbol = 16 then
        match taken with
        | [] => failure
        | last :: _ =>
          let count ← bits 2
          codeLengths code total steps (List.replicate (3 + count) last ++ taken)
      else if symbol = 17 then
        let count ← bits 3
        codeLengths code total steps (List.replicate (3 + count) 0 ++ taken)
      else
        let count ← bits 7
        codeLengths code total steps (List.replicate (11 + count) 0 ++ taken)

/-- The order in which the lengths of the code of lengths are written. -/
def lengthOrder : List Nat := [16, 17, 18, 0, 8, 7, 9, 6, 10, 5, 11, 4, 12, 3, 13, 2, 14, 1, 15]

def lengthsOfLengths : List Nat → List Nat → Inflater (List Nat)
  | [], lengths => return lengths
  | symbol :: others, lengths => do
    lengthsOfLengths others (lengths.set symbol (← bits 3))

/-- Takes the codes of a block that brings its own. -/
def ownCodes (steps : Nat) : Inflater (Code × Code) := do
  let literalCount := (← bits 5) + 257
  let distanceCount := (← bits 5) + 1
  let lengthCount := (← bits 4) + 4
  if 286 < literalCount ∨ 30 < distanceCount then failure
  let lengths ← lengthsOfLengths (lengthOrder.take lengthCount) (List.replicate 19 0)
  let code ← Code.ofLengths lengths
  let all ← codeLengths code (literalCount + distanceCount) steps []
  return (← Code.ofLengths (all.take literalCount), ← Code.ofLengths (all.drop literalCount))

/-- Takes the blocks of a stream up to the last one. Every block takes at least three bits. -/
def blocks (bitCount : Nat) : Nat → Inflater Unit
  | 0 => failure
  | steps + 1 => do
    let last ← bit
    let kind ← bits 2
    match kind with
    | 0 => stored
    | 1 =>
      symbols (← Code.ofLengths fixedLiterals) (← Code.ofLengths fixedDistances) (bitCount + 1)
    | 2 =>
      let (literals, distances) ← ownCodes (bitCount + 1)
      symbols literals distances (bitCount + 1)
    | _ => failure
    if last = 1 then return ()
    else if ← isFull then return ()
    else blocks bitCount steps

end Inflater

/-- The data of a stream, if it is whole and keeps to the format. If there is more than the bound,
only the beginning is inflated, but more than the bound. -/
def inflate (bound : Nat) (stream : ByteArray) : Option ByteArray :=
  let bitCount := 8 * stream.size
  ((Inflater.blocks bitCount (bitCount + 1)).run ⟨stream, 0, .empty, bound⟩).map
    fun (_, state) => state.output

end TestCoverage.Archive

import Mathlib
import TestCoverage.Proofs.ClassFile.Sequence

/-!
# The slots of a constant pool while it is read

A constant pool is read in rounds, one for each constant (`Pool.Rounds`), from any bytes at all.
Between two rounds the number of the next slot should be the number of slots that are filled.
The number has sixteen bits and there may be 65536 slots, if the second slot of a `long` or
`double` is behind the last one that the largest count declares (`Pool.Overflows`).

* `Pool.readFrom_of_rounds`: the steps suffice, reading ends where the rounds do.
* `Pool.Stage.Numbered.of_next`: a round keeps the numbers right but in that one case.
* `Pool.inRounds_read`: so do all rounds, and then there are not more of them than declared.
* `Header.read_numbered`: this holds of the pool in any bytes that are read as a class file.
* `Header.read_overfull`: in that case the number of the next slot is zero, and the bytes behind
  the pool are taken for constants.
-/

namespace TestCoverage.ClassFile

/-! ## Readers leave no more than there was -/

/-- What is left after the reader is no longer than before. -/
def Shrinks {α : Type} (reader : Reader α) : Prop :=
  ∀ cursor value next, reader cursor = .ok (value, next) →
    next.rest.length ≤ cursor.rest.length

theorem length_of_take {count : Nat} {cursor next : Cursor} {bytes : Bytes}
    (h : Reader.take count cursor = .ok (bytes, next)) :
    cursor.rest.length = count + next.rest.length := by
  unfold Reader.take at h
  split at h
  · next taken htaken =>
    cases h
    obtain ⟨hlength, hrest, -⟩ := Cursor.take?_eq_some_iff.mp htaken
    rw [hrest, List.length_append, hlength]
  · cases h

theorem length_of_number {width n : Nat} {cursor next : Cursor}
    (h : Reader.number width cursor = .ok (n, next)) :
    cursor.rest.length = width + next.rest.length := by
  obtain ⟨⟨bytes, middle⟩, htake, hpure⟩ := exists_of_bind_eq_ok h
  cases hpure
  exact length_of_take htake

theorem Sequential.shrinks {α : Type} {reader : Reader α} (h : Sequential reader) :
    Shrinks reader := by
  intro cursor value next hread
  obtain ⟨bytes, hbytes, -⟩ := h cursor value next hread
  rw [hbytes, List.length_append]
  exact Nat.le_add_left _ _

/-! ## Rounds -/

/-- A constant as it was read, and whether it takes two slots. -/
structure Declared where
  constant : Constant
  wide : Bool

def Declared.slots (declared : Declared) : List Constant :=
  if declared.wide then [declared.constant, .nothing] else [declared.constant]

theorem Declared.length_slots (declared : Declared) :
    declared.slots.length = if declared.wide then 2 else 1 := by
  unfold slots
  split <;> rfl

theorem Declared.length_slots_pos (declared : Declared) : 0 < declared.slots.length := by
  rw [length_slots]
  split <;> decide

namespace Pool

/-- Between two constants: the number of the next slot, the slots so far, and what is left. -/
structure Stage where
  slot : UInt16
  pool : Pool
  cursor : Cursor

namespace Stage

/-- Before the first constant. -/
def first (cursor : Cursor) : Stage := ⟨1, #[.nothing], cursor⟩

/-- One constant is read and put into its slots. -/
def next (stage : Stage) : Except Fault (Declared × Stage) := do
  let (tag, cursor) ← Reader.number 1 stage.cursor
  let ((constant, wide), cursor) ← Constant.read tag stage.slot cursor
  if wide then
    return (⟨constant, true⟩,
      ⟨stage.slot + 1 + 1, (stage.pool.push constant).push .nothing, cursor⟩)
  else return (⟨constant, false⟩, ⟨stage.slot + 1, stage.pool.push constant, cursor⟩)

/-- Reading ends at this stage: the count is reached, or the next constant cannot be read. -/
def Ends (count : UInt16) (last : Stage) (answer : Except Fault (Pool × Cursor)) : Prop :=
  ¬last.slot < count ∧ answer = .ok (last.pool, last.cursor) ∨
    last.slot < count ∧ ∃ fault, last.next = .error fault ∧ answer = .error fault

end Stage

/-- These constants are read one after the other, each while the number of its slot is below the
declared count. -/
inductive Rounds (count : UInt16) : Stage → List Declared → Stage → Prop where
  | nil (stage : Stage) : Rounds count stage [] stage
  | cons {stage next last : Stage} {declared : Declared} {others : List Declared}
      (hslot : stage.slot < count) (hnext : stage.next = .ok (declared, next))
      (hothers : Rounds count next others last) :
      Rounds count stage (declared :: others) last

/-- The largest count is declared, and a constant of two slots begins in the last slot. -/
def Overflows (count : UInt16) (start : Stage) : Prop :=
  count = 65535 ∧ ∃ constants stage declared next, Rounds count start constants stage ∧
    stage.slot = 65534 ∧ stage.next = .ok (declared, next) ∧ declared.wide = true

variable {count : UInt16} {stage next last : Stage} {declared : Declared}

namespace Stage

/-- What one round does. -/
theorem next_cases (h : stage.next = .ok (declared, next)) :
    next.pool.toList = stage.pool.toList ++ declared.slots ∧
      next.slot = stage.slot + UInt16.ofNat declared.slots.length ∧
      next.cursor.rest.length < stage.cursor.rest.length := by
  obtain ⟨⟨tag, middle⟩, htag, h⟩ := exists_of_bind_eq_ok h
  obtain ⟨⟨⟨constant, wide⟩, after⟩, hconstant, h⟩ := exists_of_bind_eq_ok h
  have htaken := length_of_number htag
  have hshrinks := (Sequential.constant tag stage.slot).shrinks middle _ _ hconstant
  have hless : after.rest.length < stage.cursor.rest.length := by omega
  cases wide with
  | true =>
    cases h
    exact ⟨by simp [Declared.slots], add_assoc _ _ _, hless⟩
  | false =>
    cases h
    exact ⟨by simp [Declared.slots], rfl, hless⟩

theorem size_next (h : stage.next = .ok (declared, next)) :
    next.pool.size = stage.pool.size + declared.slots.length := by
  rw [← Array.length_toList, (next_cases h).1, List.length_append, Array.length_toList]

/-- The number of the next slot is the number of slots so far. -/
def Numbered (stage : Stage) : Prop := stage.slot.toNat = stage.pool.size

theorem numbered_first (cursor : Cursor) : (first cursor).Numbered := rfl

/-- A slot below the count has a number of sixteen bits after it, and a second one but at the
very end. -/
theorem Numbered.of_next (h : stage.Numbered) (hslot : stage.slot < count)
    (hnext : stage.next = .ok (declared, next))
    (hfits : ¬(count = 65535 ∧ stage.slot = 65534 ∧ declared.wide = true)) : next.Numbered := by
  have hnumber := (next_cases hnext).2.1
  have hlt := UInt16.lt_iff_toNat_lt.mp hslot
  have hcount := count.toNat_lt
  rw [← UInt16.toNat_inj, ← UInt16.toNat_inj] at hfits
  unfold Numbered at *
  rw [size_next hnext, ← h, hnumber, UInt16.toNat_add, UInt16.toNat_ofNat',
    Declared.length_slots]
  split
  · next hwide =>
    have hlast : ¬(count.toNat = 65535 ∧ stage.slot.toNat = 65534) := fun hboth =>
      hfits ⟨hboth.1, hboth.2, hwide⟩
    omega
  · omega

/-- What follows a constant of two slots in the last slot is numbered zero again. -/
theorem slot_of_overflow (hslot : stage.slot = 65534)
    (hnext : stage.next = .ok (declared, next)) (hwide : declared.wide = true) :
    next.slot = 0 := by
  obtain ⟨-, hnumber, -⟩ := next_cases hnext
  rw [hnumber, hslot, Declared.length_slots, if_pos hwide]
  decide

end Stage

/-! ## Runs of rounds -/

theorem Overflows.cons (hslot : stage.slot < count) (hnext : stage.next = .ok (declared, next))
    (h : Overflows count next) : Overflows count stage := by
  obtain ⟨hcount, constants, before, wide, after, hrounds, hbefore⟩ := h
  exact ⟨hcount, declared :: constants, before, wide, after, .cons hslot hnext hrounds, hbefore⟩

theorem not_overflows_at (hfits : ¬Overflows count stage)
    (hnext : stage.next = .ok (declared, next)) :
    ¬(count = 65535 ∧ stage.slot = 65534 ∧ declared.wide = true) := by
  rintro ⟨hcount, hslot, hwide⟩
  exact hfits ⟨hcount, [], stage, declared, next, .nil stage, hslot, hnext, hwide⟩

namespace Rounds

variable {constants more : List Declared}

theorem append {start : Stage} (h : Rounds count start constants stage)
    (hmore : Rounds count stage more last) : Rounds count start (constants ++ more) last := by
  induction h with
  | nil => exact hmore
  | cons hslot hnext _ ih => exact .cons hslot hnext (ih hmore)

/-- The constants fill their slots in the order in which they are read. -/
theorem pool_eq (h : Rounds count stage constants last) :
    last.pool.toList = stage.pool.toList ++ constants.flatMap Declared.slots := by
  induction h with
  | nil => simp
  | cons _ hnext _ ih =>
    rw [ih, (Stage.next_cases hnext).1, List.flatMap_cons, List.append_assoc]

theorem numbered (h : Rounds count stage constants last) (hstage : stage.Numbered)
    (hfits : ¬Overflows count stage) : last.Numbered := by
  induction h with
  | nil => exact hstage
  | cons hslot hnext _ ih =>
    exact ih (hstage.of_next hslot hnext (not_overflows_at hfits hnext))
      fun hlater => hfits (hlater.cons hslot hnext)

/-- Each round begins at a higher slot than the one before, and all of them below the count. -/
theorem length_le (h : Rounds count stage constants last) (hstage : stage.Numbered)
    (hfits : ¬Overflows count stage) :
    constants = [] ∨ stage.slot.toNat + constants.length ≤ count.toNat := by
  induction h with
  | nil => exact .inl rfl
  | @cons stage next last declared others hslot hnext hothers ih =>
    have hnumbered := hstage.of_next hslot hnext (not_overflows_at hfits hnext)
    have hlt := UInt16.lt_iff_toNat_lt.mp hslot
    have hless : stage.slot.toNat < next.slot.toNat := by
      have hslots := declared.length_slots_pos
      rw [hstage, hnumbered, Stage.size_next hnext]
      omega
    rw [List.length_cons]
    rcases ih hnumbered fun hlater => hfits (hlater.cons hslot hnext) with rfl | hle
    · exact .inr hlt
    · exact .inr (by omega)

/-- A constant stays in the slot that it was read into. -/
theorem getElem?_slot (h : Rounds count stage (declared :: more) last)
    (hstage : stage.Numbered) : last.pool[stage.slot.toNat]? = some declared.constant := by
  have hslots : declared.slots[0]? = some declared.constant := by
    unfold Declared.slots
    split <;> rfl
  rw [← Array.getElem?_toList, h.pool_eq, hstage, ← Array.length_toList,
    List.getElem?_append_right (Nat.le_refl _), Nat.sub_self, List.flatMap_cons,
    List.getElem?_append_left (List.getElem?_eq_some_iff.mp hslots).1, hslots]

end Rounds

/-! ## Reading in rounds -/

/-- Every round takes a byte, so the rounds end. -/
theorem exists_rounds (count : UInt16) (stage : Stage) :
    ∃ constants last, Rounds count stage constants last ∧ ∃ answer, last.Ends count answer := by
  induction hlength : stage.cursor.rest.length using Nat.strongRecOn generalizing stage with
  | ind length ih =>
    by_cases hslot : stage.slot < count
    · cases hnext : stage.next with
      | error fault => exact ⟨[], stage, .nil stage, _, .inr ⟨hslot, fault, hnext, rfl⟩⟩
      | ok read =>
        obtain ⟨declared, next⟩ := read
        have hless := (Stage.next_cases hnext).2.2
        obtain ⟨constants, last, hrounds, hends⟩ := ih _ (hlength ▸ hless) next rfl
        exact ⟨declared :: constants, last, .cons hslot hnext hrounds, hends⟩
    · exact ⟨[], stage, .nil stage, _, .inl ⟨hslot, rfl⟩⟩

/-- Below the count one round is made and then the rest, if a step is left for it. -/
theorem readFrom_eq (steps : Nat) (hslot : stage.slot < count) :
    readFrom count steps stage.slot stage.pool stage.cursor =
      stage.next >>= fun (_, next) =>
        match steps with
        | 0 => .ok (stage.pool, next.cursor)
        | steps + 1 => readFrom count steps next.slot next.pool next.cursor := by
  conv_lhs => unfold readFrom
  rw [if_pos hslot]
  unfold Stage.next
  change (Reader.number 1 stage.cursor >>= _) = _
  cases Reader.number 1 stage.cursor with
  | error fault => rfl
  | ok taken =>
    obtain ⟨tag, middle⟩ := taken
    change (Constant.read tag stage.slot middle >>= _) =
      (Constant.read tag stage.slot middle >>= _) >>= _
    cases Constant.read tag stage.slot middle with
    | error fault => rfl
    | ok read =>
      obtain ⟨⟨constant, wide⟩, after⟩ := read
      cases steps <;> cases wide <;> rfl

theorem readFrom_of_ends {answer : Except Fault (Pool × Cursor)} (h : stage.Ends count answer)
    (steps : Nat) : readFrom count steps stage.slot stage.pool stage.cursor = answer := by
  obtain ⟨hslot, rfl⟩ | ⟨hslot, fault, hnext, rfl⟩ := h
  · unfold readFrom
    rw [if_neg hslot]
    rfl
  · rw [readFrom_eq steps hslot, hnext]
    rfl

/-- There are as many steps as bytes, which is enough for all rounds. -/
theorem readFrom_of_rounds {constants : List Declared} {steps : Nat}
    {answer : Except Fault (Pool × Cursor)} (h : Rounds count stage constants last)
    (hends : last.Ends count answer) (hsteps : stage.cursor.rest.length ≤ steps) :
    readFrom count steps stage.slot stage.pool stage.cursor = answer := by
  induction h generalizing steps with
  | nil => exact readFrom_of_ends hends steps
  | cons hslot hnext _ ih =>
    have hless := (Stage.next_cases hnext).2.2
    obtain ⟨fewer, rfl⟩ : ∃ fewer, steps = fewer + 1 := ⟨steps - 1, by omega⟩
    rw [readFrom_eq _ hslot, hnext]
    exact ih hends (by omega)

theorem read_eq (offset : Nat) (count : UInt16) (rest : Bytes) :
    Pool.read ⟨offset, u2 count ++ rest⟩ =
      readFrom count rest.length 1 #[.nothing] ⟨offset + 2, rest⟩ := by
  unfold Pool.read
  rw [(reads_u2 count).run_bind, UInt16.ofNat_toNat, length_u2]
  rfl

theorem read_of_rounds {offset : Nat} {rest : Bytes} {constants : List Declared}
    {answer : Except Fault (Pool × Cursor)}
    (h : Rounds count (.first ⟨offset + 2, rest⟩) constants last) (hends : last.Ends count answer) :
    Pool.read ⟨offset, u2 count ++ rest⟩ = answer := by
  rw [read_eq]
  exact readFrom_of_rounds h hends (Nat.le_refl _)

theorem read_of_length_lt {cursor : Cursor} (h : cursor.rest.length < 2) :
    Pool.read cursor = .error (.truncated cursor.offset) := by
  have htake : Reader.take 2 cursor = .error (.truncated cursor.offset) := by
    rw [Reader.take, Cursor.take?_eq_none_iff.mpr h]
  change ((Reader.take 2 cursor >>= _) >>= _) = _
  rw [htake]
  rfl

theorem exists_u2 {bytes : Bytes} (h : 2 ≤ bytes.length) : ∃ n rest, bytes = u2 n ++ rest := by
  have hlength : (bytes.take 2).length = 2 := by
    rw [List.length_take]
    omega
  have hlt : Bytes.ofBigEndian (bytes.take 2) < 2 ^ 16 :=
    (Bytes.ofBigEndian_lt (bytes.take 2)).trans_eq (by rw [hlength]; rfl)
  have hbytes := Bytes.bigEndian_ofBigEndian (bytes.take 2)
  rw [hlength] at hbytes
  refine ⟨UInt16.ofNat (Bytes.ofBigEndian (bytes.take 2)), bytes.drop 2, ?_⟩
  rw [u2, UInt16.toNat_ofNat', Nat.mod_eq_of_lt hlt, hbytes, List.take_append_drop]

/-- The numbers are right at every stage, or else two slots are taken at the very end. -/
theorem numbered_iff_not_overflows (cursor : Cursor) :
    (∀ constants stage, Rounds count (.first cursor) constants stage → stage.Numbered) ↔
      ¬Overflows count (.first cursor) := by
  constructor
  · rintro hnumbered ⟨rfl, constants, stage, declared, next, hrounds, hslot, hnext, hwide⟩
    have hlt : stage.slot < 65535 := by
      rw [hslot]
      decide
    have hnumber := hnumbered _ next (hrounds.append (.cons hlt hnext (.nil next)))
    have hsize := Stage.size_next hnext
    rw [← hnumber, Stage.slot_of_overflow hslot hnext hwide, Declared.length_slots,
      if_pos hwide] at hsize
    cases hsize
  · intro hfits constants stage hrounds
    exact hrounds.numbered (Stage.numbered_first cursor) hfits

/-- What is true of the rounds from `start` on and of the answer that reading comes to. -/
structure InRounds (count : UInt16) (start : Stage) (answer : Except Fault (Pool × Cursor)) :
    Prop where
  ends : ∃ constants last, Rounds count start constants last ∧ last.Ends count answer
  /-- At every stage the number of the next slot is the number of slots so far. -/
  numbered_iff : (∀ constants stage, Rounds count start constants stage →
    stage.slot.toNat = stage.pool.size) ↔ ¬Overflows count start
  /-- The next slot is the one after those that the constants take. -/
  number_eq : ¬Overflows count start → ∀ constants stage, Rounds count start constants stage →
    stage.slot.toNat = 1 + (constants.flatMap Declared.slots).length
  length_le : ¬Overflows count start → ∀ constants stage, Rounds count start constants stage →
    constants.length ≤ count.toNat
  /-- A constant is kept in the slot that was the next one when it was read. -/
  kept : ¬Overflows count start → ∀ constants stage, Rounds count start constants stage →
    ∀ declared more last, Rounds count stage (declared :: more) last →
      last.pool[stage.slot.toNat]? = some declared.constant

theorem inRounds_read (offset : Nat) (count : UInt16) (rest : Bytes) :
    InRounds count (.first ⟨offset + 2, rest⟩) (Pool.read ⟨offset, u2 count ++ rest⟩) where
  ends := by
    obtain ⟨constants, last, hrounds, answer, hends⟩ :=
      exists_rounds count (.first ⟨offset + 2, rest⟩)
    exact ⟨constants, last, hrounds, (read_of_rounds hrounds hends).symm ▸ hends⟩
  numbered_iff := numbered_iff_not_overflows _
  number_eq hfits constants stage hrounds := by
    have hnumbered := hrounds.numbered (Stage.numbered_first _) hfits
    rw [hnumbered, ← Array.length_toList, hrounds.pool_eq, List.length_append]
    rfl
  length_le hfits constants stage hrounds := by
    rcases hrounds.length_le (Stage.numbered_first _) hfits with rfl | hle
    · exact Nat.zero_le _
    · omega
  kept hfits _ _ hrounds _ _ _ hmore :=
    hmore.getElem?_slot (hrounds.numbered (Stage.numbered_first _) hfits)

end Pool

/-! ## Headers -/

theorem cursor_of_number {width n : Nat} {cursor next : Cursor}
    (h : Reader.number width cursor = .ok (n, next)) :
    next = ⟨cursor.offset + width, cursor.rest.drop width⟩ := by
  obtain ⟨⟨bytes, middle⟩, htake, hpure⟩ := exists_of_bind_eq_ok h
  cases hpure
  unfold Reader.take Cursor.take? at htake
  dsimp only at htake
  split at htake <;> simp_all

/-- The constant pool of a class file begins at offset eight. -/
theorem Header.exists_pool {bytes : Bytes} {header : Header} (h : Header.read bytes = .ok header) :
    ∃ pool, Pool.read ⟨8, bytes.drop 8⟩ = .ok pool := by
  unfold Header.read at h
  cases hrun : Header.reader.run (.start bytes) with
  | error fault =>
    rw [hrun] at h
    cases h
  | ok read =>
    unfold Header.reader at hrun
    obtain ⟨⟨found, first⟩, hfound, hrun⟩ := exists_of_bind_eq_ok hrun
    dsimp only at hrun
    split at hrun
    · cases hrun
    · obtain ⟨⟨_, second⟩, hminor, hrun⟩ := exists_of_bind_eq_ok hrun
      obtain ⟨⟨_, third⟩, hmajor, hrun⟩ := exists_of_bind_eq_ok hrun
      obtain ⟨pool, hpool, -⟩ := exists_of_bind_eq_ok hrun
      have hthird : third = ⟨8, bytes.drop 8⟩ := by
        rw [cursor_of_number hmajor, cursor_of_number hminor, cursor_of_number hfound]
        simp [Cursor.start]
      exact ⟨pool, hthird ▸ hpool⟩

/-- Whatever the bytes are, reading a header ends with a header or with a fault, and there is no
header without a constant pool. The pool is read in rounds: unless the second slot of a `long` or
`double` overflows the largest count, the number of a slot is the number of slots before it, there
are no more rounds than declared, and each constant is in the slot that was numbered for it. -/
theorem Header.read_numbered (bytes : Bytes) :
    ((∃ header, Header.read bytes = .ok header ∧
        ∃ pool, Pool.read ⟨8, bytes.drop 8⟩ = .ok pool) ∨
      ∃ fault, Header.read bytes = .error fault) ∧
    (bytes.length < 10 ∧ Pool.read ⟨8, bytes.drop 8⟩ = .error (.truncated 8) ∨
      ∃ count rest, bytes.drop 8 = u2 count ++ rest ∧
        Pool.InRounds count (.first ⟨10, rest⟩) (Pool.read ⟨8, bytes.drop 8⟩)) := by
  refine ⟨?_, ?_⟩
  · cases hread : Header.read bytes with
    | ok header => exact .inl ⟨header, rfl, Header.exists_pool hread⟩
    | error fault => exact .inr ⟨fault, rfl⟩
  · obtain hshort | hlong := Nat.lt_or_ge (bytes.drop 8).length 2
    · refine .inl ⟨?_, Pool.read_of_length_lt hshort⟩
      rw [List.length_drop] at hshort
      omega
    · obtain ⟨count, rest, hrest⟩ := Pool.exists_u2 hlong
      rw [hrest]
      exact .inr ⟨count, rest, rfl, Pool.inRounds_read 8 count rest⟩

/-! ## The last slot -/

/-- A constant as it is read from where it was written. -/
def PoolConstant.declared (constant : PoolConstant) : Declared :=
  ⟨constant.kept, constant.isWide⟩

namespace Pool

theorem next_write (constant : PoolConstant) {stage : Stage} {rest : Bytes}
    (hrest : stage.cursor.rest = constant.write ++ rest) :
    ∃ next, stage.next = .ok (constant.declared, next) ∧ next.cursor.rest = rest := by
  obtain ⟨slot, pool, offset, bytes⟩ := stage
  have htag := reads_tag constant offset (constant.body ++ rest)
  have hconstant := reads_constant constant slot (offset + 1) rest
  obtain rfl : bytes = constant.write ++ rest := hrest
  unfold Stage.next PoolConstant.declared
  change ∃ next, (Reader.number 1 ⟨offset, [constant.tag] ++ (constant.body ++ rest)⟩ >>= _) = _ ∧ _
  rw [htag]
  change ∃ next, (Constant.read constant.tag.toNat slot ⟨offset + 1, constant.body ++ rest⟩ >>= _) =
    _ ∧ _
  rw [hconstant]
  cases constant.isWide <;> exact ⟨_, rfl, rfl⟩

theorem slots_declared (constant : PoolConstant) :
    constant.declared.slots.length = constant.slots.length := by
  rw [Declared.length_slots, length_slots]
  rfl

/-- Constants that were written are read in rounds while there are slots for them. -/
theorem exists_rounds_write {count : UInt16} (constants : List PoolConstant) {stage : Stage}
    {rest : Bytes} (hrest : stage.cursor.rest = constants.flatMap PoolConstant.write ++ rest)
    (hstage : stage.Numbered)
    (hslots : stage.pool.size + (constants.flatMap PoolConstant.slots).length ≤ count.toNat) :
    ∃ last, Rounds count stage (constants.map PoolConstant.declared) last ∧ last.Numbered ∧
      last.pool.size = stage.pool.size + (constants.flatMap PoolConstant.slots).length ∧
      last.cursor.rest = rest := by
  induction constants generalizing stage with
  | nil => exact ⟨stage, .nil stage, hstage, rfl, hrest⟩
  | cons constant others ih =>
    rw [List.flatMap_cons, List.append_assoc] at hrest
    rw [List.flatMap_cons, List.length_append] at hslots ⊢
    obtain ⟨next, hnext, hafter⟩ := next_write constant hrest
    have hsize := Stage.size_next hnext
    rw [slots_declared] at hsize
    have hpositive := slots_declared constant ▸ constant.declared.length_slots_pos
    have hslot : stage.slot < count := by
      rw [UInt16.lt_iff_toNat_lt, hstage]
      omega
    have hfits : ¬(count = 65535 ∧ stage.slot = 65534 ∧ constant.declared.wide = true) := by
      rintro ⟨rfl, hlast, hwide⟩
      have hbefore : stage.pool.size = 65534 := by
        rw [← hstage, hlast]
        rfl
      have htwo : constant.slots.length = 2 := by
        rw [← slots_declared, Declared.length_slots, if_pos hwide]
      have hcount : (65535 : UInt16).toNat = 65535 := rfl
      omega
    obtain ⟨last, hrounds, hnumbered, hall, hleft⟩ :=
      ih hafter (hstage.of_next hslot hnext hfits) (by omega)
    exact ⟨last, .cons hslot hnext hrounds, hnumbered, by omega, hleft⟩

end Pool

/-- The constants of slots 1 to 65533: a text, a class of this name, and strings. -/
def overfullConstants : List PoolConstant :=
  .utf8 [0x41] (by decide) :: .class 1 :: List.replicate 65531 (.string 1)

/-- What follows the declared count: the constants, a `long` for slot 65534, and the header of a
class without super class, interfaces, fields, methods and attributes. -/
def overfullRest : Bytes :=
  overfullConstants.flatMap PoolConstant.write ++ ((PoolConstant.long 0).write ++
    (u2 0x21 ++ u2 2 ++ u2 0 ++ u2 0 ++ u2 0 ++ u2 0 ++ u2 0))

/-- A class file with a constant in each slot that the largest count has. -/
def overfull : Bytes :=
  [0xCA, 0xFE, 0xBA, 0xBE] ++ u2 0 ++ u2 52 ++ (u2 65535 ++ overfullRest)

theorem Header.read_of_pool_error {minor major : UInt16} {rest : Bytes} {fault : Fault}
    (h : Pool.read ⟨8, rest⟩ = .error fault) :
    Header.read ([0xCA, 0xFE, 0xBA, 0xBE] ++ u2 minor ++ u2 major ++ rest) = .error fault := by
  have hfits : magic < 256 ^ 4 := by decide
  have hmagic : Reads (Reader.number 4) [0xCA, 0xFE, 0xBA, 0xBE] magic := reads_number hfits
  unfold Header.read Header.reader
  rw [StateT.run, Cursor.start, List.append_assoc, List.append_assoc, hmagic.run_bind,
    if_neg (by decide)]
  dsimp only
  rw [(reads_u2 minor).run_bind, (reads_u2 major).run_bind, length_u2, length_u2]
  change Prod.fst <$> (Pool.read ⟨8, rest⟩ >>= _) = _
  rw [h]
  rfl

theorem length_slots_overfullConstants :
    (overfullConstants.flatMap PoolConstant.slots).length = 65533 := by
  have hstrings (n : Nat) :
      ((List.replicate n (PoolConstant.string 1)).flatMap PoolConstant.slots).length = n := by
    induction n with
    | zero => rfl
    | succ n ih =>
      rw [List.replicate_succ, List.flatMap_cons, List.length_append, ih, Nat.add_comm]
      rfl
  rw [overfullConstants, List.flatMap_cons, List.flatMap_cons, List.length_append,
    List.length_append, hstrings]
  rfl

/-- The number of the slot behind the last one is zero, and the flags of the class are taken for
the tag of a constant. -/
theorem Header.read_overfull :
    Header.read overfull = .error (.unknownConstant 0 0) ∧
      ∃ constants stage, Pool.Rounds 65535 (.first ⟨10, overfullRest⟩) constants stage ∧
        stage.slot = 0 ∧ stage.pool.size = 65536 := by
  have hfits : (Pool.Stage.first ⟨10, overfullRest⟩).pool.size +
      (overfullConstants.flatMap PoolConstant.slots).length ≤ (65535 : UInt16).toNat := by
    rw [length_slots_overfullConstants]
    decide
  obtain ⟨last, hrounds, hnumbered, hsize, hrest⟩ :=
    Pool.exists_rounds_write overfullConstants rfl (Pool.Stage.numbered_first _) hfits
  rw [length_slots_overfullConstants] at hsize
  have hslot : last.slot = 65534 := by
    rw [← UInt16.toNat_inj, hnumbered, hsize]
    rfl
  have hlt : last.slot < 65535 := by
    rw [hslot]
    decide
  obtain ⟨next, hnext, hflags⟩ := Pool.next_write (.long 0) hrest
  have hzero : next.slot = 0 := Pool.Stage.slot_of_overflow hslot hnext rfl
  have hrounds := hrounds.append (.cons hlt hnext (.nil next))
  have hfault : next.next = .error (.unknownConstant 0 0) := by
    obtain ⟨slot, pool, offset, bytes⟩ := next
    obtain rfl : slot = 0 := hzero
    obtain rfl := hflags
    rfl
  have hends : next.Ends 65535 (.error (.unknownConstant 0 0)) := by
    refine .inr ⟨?_, _, hfault, rfl⟩
    rw [hzero]
    decide
  refine ⟨?_, _, next, hrounds, hzero, ?_⟩
  · exact Header.read_of_pool_error (Pool.read_of_rounds hrounds hends)
  · rw [Pool.Stage.size_next hnext, hsize]
    rfl

end TestCoverage.ClassFile

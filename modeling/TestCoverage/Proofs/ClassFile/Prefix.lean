import Mathlib
import TestCoverage.ClassFile.Minimal
import TestCoverage.Proofs.ClassFile.Pool

/-!
# The bytes that determine a header

A class file is read in sequence: for the header that is read some bytes are consumed, and these
determine it.

* `Pool.sequential_constants`: the steps for which there are bytes are enough, so the constants are
  read in sequence.
* `Header.read_take`: a header is determined by a number of bytes at the front of the file, and
  every shorter front is cut off.
-/

namespace TestCoverage.ClassFile

/-! ## The constant pool -/

namespace Pool

variable {count : UInt16}

/-- Beyond the bytes that are left the number of steps makes no difference. -/
theorem readFrom_congr {steps others : Nat} {slot : UInt16} {pool : Pool} {cursor : Cursor}
    (hsteps : cursor.rest.length ≤ steps) (hothers : cursor.rest.length ≤ others) :
    readFrom count steps slot pool cursor = readFrom count others slot pool cursor := by
  obtain ⟨_, _, hrounds, answer, hends⟩ := exists_rounds count ⟨slot, pool, cursor⟩
  exact (readFrom_of_rounds hrounds hends hsteps).trans
    (readFrom_of_rounds hrounds hends hothers).symm

/-- The tag of a constant, and what follows it. -/
def constant (slot : UInt16) : Reader (Constant × Bool) := do
  Constant.read (← Reader.number 1) slot

/-- Constants are read from a slot on, in as many steps as bytes are left. -/
def constants (count slot : UInt16) (pool : Pool) : Reader Pool := fun cursor =>
  readFrom count cursor.rest.length slot pool cursor

theorem constants_of_lt {slot : UInt16} (hslot : slot < count) (pool : Pool) :
    constants count slot pool = constant slot >>= fun (constant, wide) =>
      if wide then constants count (slot + 1 + 1) ((pool.push constant).push .nothing)
      else constants count (slot + 1) (pool.push constant) := by
  funext cursor
  have hround := @readFrom_eq count ⟨slot, pool, cursor⟩ cursor.rest.length hslot
  unfold constants
  rw [hround]
  unfold Stage.next constant
  change (Reader.number 1 cursor >>= _) >>= _ = (Reader.number 1 cursor >>= _) >>= _
  cases htag : Reader.number 1 cursor with
  | error fault => rfl
  | ok taken =>
    obtain ⟨tag, middle⟩ := taken
    have hlength := length_of_number htag
    change (Constant.read tag slot middle >>= _) >>= _ = Constant.read tag slot middle >>= _
    cases hconstant : Constant.read tag slot middle with
    | error fault => rfl
    | ok read =>
      obtain ⟨⟨constant, wide⟩, after⟩ := read
      have hshrinks := (Sequential.constant tag slot).shrinks middle _ _ hconstant
      obtain ⟨steps, hsteps⟩ : ∃ steps, cursor.rest.length = steps + 1 :=
        ⟨middle.rest.length, by omega⟩
      have hleft : after.rest.length ≤ steps := by omega
      rw [hsteps]
      cases wide with
      | true => exact readFrom_congr hleft le_rfl
      | false => exact readFrom_congr hleft le_rfl

theorem sequential_constant (slot : UInt16) : Sequential (constant slot) :=
  (Sequential.number 1).bind fun tag => .constant tag slot

/-- Some byte is gone behind a constant. -/
theorem length_lt_of_constant {slot : UInt16} {cursor next : Cursor} {read : Constant × Bool}
    (h : constant slot cursor = .ok (read, next)) : next.rest.length < cursor.rest.length := by
  obtain ⟨⟨tag, middle⟩, htag, hconstant⟩ := exists_of_bind_eq_ok h
  have hlength := length_of_number htag
  have hshrinks := (Sequential.constant tag slot).shrinks middle _ _ hconstant
  omega

theorem sequential_constants (count slot : UInt16) (pool : Pool) :
    Sequential (constants count slot pool) := by
  intro cursor
  induction hlength : cursor.rest.length using Nat.strong_induction_on generalizing slot pool cursor
    with
  | _ length ih =>
    intro result last h
    by_cases hslot : slot < count
    · rw [constants_of_lt hslot] at h ⊢
      obtain ⟨⟨⟨read, wide⟩, middle⟩, hconstant, hrest⟩ := exists_of_bind_eq_ok h
      have hlt := length_lt_of_constant hconstant
      obtain ⟨bytes, hbytes, hconsumes⟩ := sequential_constant slot cursor _ _ hconstant
      obtain ⟨more, hmore, hconsumesMore⟩ : ∃ more, middle.rest = more ++ last.rest ∧
          Consumes (if wide then constants count (slot + 1 + 1) ((pool.push read).push .nothing)
            else constants count (slot + 1) (pool.push read)) more result := by
        cases wide with
        | true => exact ih _ (hlength ▸ hlt) _ _ middle rfl result last hrest
        | false => exact ih _ (hlength ▸ hlt) _ _ middle rfl result last hrest
      refine ⟨bytes ++ more, ?_, hconsumes.bind hconsumesMore⟩
      rw [hbytes, hmore, List.append_assoc]
    · have hend : constants count slot pool = Pure.pure pool := by
        funext cursor
        unfold constants readFrom
        rw [if_neg hslot]
      rw [hend] at h ⊢
      exact Sequential.pure pool cursor result last h

theorem sequential_read : Sequential Pool.read :=
  (Sequential.number 2).bind fun count => sequential_constants (UInt16.ofNat count) 1 #[.nothing]

end Pool

/-! ## Headers -/

theorem sequential_skipAttribute : Sequential skipAttribute :=
  (Sequential.skip 2).bind fun _ => (Sequential.number 4).bind fun length => .skip length

theorem sequential_skipMember : Sequential skipMember :=
  (Sequential.skip 6).bind fun _ => (Sequential.number 2).bind fun count =>
    sequential_skipAttribute.times count

theorem sequential_readSourceFile (pool : Pool) (count : Nat) (found : Option String) :
    Sequential (readSourceFile pool count found) := by
  induction count generalizing found with
  | zero => exact .pure found
  | succ count ih =>
    unfold readSourceFile
    refine (Sequential.number 2).bind fun name => (Sequential.number 4).bind fun length =>
      (Sequential.take length).bind fun body => (Sequential.lift _).bind fun text => ?_
    split
    · exact (Sequential.lift _).bind fun source => ih (some source)
    · exact ih found

theorem sequential_reader : Sequential Header.reader := by
  unfold Header.reader
  refine (Sequential.number 4).bind fun found => ?_
  split
  · exact .throw _
  refine (Sequential.number 2).bind fun minorVersion => (Sequential.number 2).bind
    fun majorVersion => Pool.sequential_read.bind fun pool => (Sequential.skip 2).bind fun _ => ?_
  refine (Sequential.number 2).bind fun thisClass => (Sequential.number 2).bind fun superClass =>
    (Sequential.number 2).bind fun interfaces => (Sequential.skip _).bind fun _ => ?_
  refine (Sequential.number 2).bind fun fields => (sequential_skipMember.times fields).bind
    fun _ => (Sequential.number 2).bind fun methods => (sequential_skipMember.times methods).bind
      fun _ => (Sequential.number 2).bind fun attributes => ?_
  refine (sequential_readSourceFile pool attributes none).bind fun sourceFile =>
    (Sequential.lift _).bind fun name => ?_
  split
  · exact .pure _
  · exact ((Sequential.lift _).map some).bind fun superName => .pure _

/-- A header that is read is determined by a number of bytes at the front of the file: whatever
follows these bytes the header is the same, and of any fewer of them some field is cut off, which
begins no further than they reach. -/
theorem Header.read_take {bytes : Bytes} {header : Header} (h : Header.read bytes = .ok header) :
    ∃ length ≤ bytes.length,
      (∀ others, Header.read (bytes.take length ++ others) = .ok header) ∧
      ∀ cut < length, ∃ place ≤ cut, Header.read (bytes.take cut) = .error (.truncated place) := by
  unfold Header.read at h
  cases hrun : Header.reader.run (.start bytes) with
  | error fault =>
    rw [hrun] at h
    cases h
  | ok answer =>
    obtain ⟨value, next⟩ := answer
    rw [hrun] at h
    obtain rfl : value = header := Except.ok.inj h
    obtain ⟨front, hfront, hconsumes⟩ := sequential_reader _ _ _ hrun
    have hbytes : bytes = front ++ next.rest := hfront
    refine ⟨front.length, ?_, fun others => ?_, fun cut hcut => ?_⟩
    · rw [hbytes, List.length_append]
      exact Nat.le_add_right _ _
    · have hread := hconsumes.reads 0 others
      rw [hbytes, List.take_left, Header.read, StateT.run, Cursor.start, hread]
      rfl
    · have htake : bytes.take cut = front.take cut := by
        rw [hbytes, List.take_append_of_le_length (Nat.le_of_lt hcut)]
      have hne : front.take cut ≠ front := by
        rw [Ne, List.take_eq_self_iff]
        exact Nat.not_le.mpr hcut
      obtain ⟨place, hplace, hread⟩ := hconsumes.cut _ (List.take_prefix cut front) hne 0
      rw [Nat.zero_add, List.length_take] at hplace
      refine ⟨place, hplace.trans (Nat.min_le_left _ _), ?_⟩
      rw [htake, Header.read, StateT.run, Cursor.start, hread]
      rfl

/-- A class file with a source file, and something behind it. -/
theorem Header.read_take_source_file :
    let bytes := minimal "A" (some "A.java") "" ++ [0xCA, 0xFE]
    let header : Header := ⟨0, 52, "A", some "java/lang/Object", some "A.java"⟩
    Header.read bytes = .ok header ∧ ∃ length ≤ bytes.length,
      (∀ others, Header.read (bytes.take length ++ others) = .ok header) ∧
      ∀ cut < length, ∃ place ≤ cut, Header.read (bytes.take cut) = .error (.truncated place) := by
  have hread : Header.read (minimal "A" (some "A.java") "" ++ [0xCA, 0xFE]) =
      .ok ⟨0, 52, "A", some "java/lang/Object", some "A.java"⟩ := by
    decide +kernel
  exact ⟨hread, Header.read_take hread⟩

end TestCoverage.ClassFile

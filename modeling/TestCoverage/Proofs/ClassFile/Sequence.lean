import Mathlib
import TestCoverage.Proofs.ClassFile.Header

/-!
# Readers in sequence

A reader consumes bytes for a value (`Consumes`) if it takes exactly these bytes for it whatever
follows them, and of fewer of them finds a field cut off, at an offset no further than they reach.
Readers in sequence consume the bytes of both (`Consumes.bind`).

All readers of class files are sequential (`Sequential`): for whatever they read they have consumed
bytes. This is so for references into the constant pool too, which consume nothing: they are
followed only when the bytes in front of them have been there, so where bytes are missing no
reference has failed before that is not one of the whole file.
-/

namespace TestCoverage.ClassFile

theorem exists_of_bind_eq_ok {ε α β : Type} {first : Except ε α} {following : α → Except ε β}
    {result : β} (h : first >>= following = .ok result) :
    ∃ value, first = .ok value ∧ following value = .ok result := by
  cases first with
  | error fault => cases h
  | ok value => exact ⟨value, rfl, h⟩

variable {α β : Type}

/-- The reader takes exactly these bytes for the value, whatever follows them, and finds some field
cut off where they end too early. -/
structure Consumes (reader : Reader α) (bytes : Bytes) (value : α) : Prop where
  reads : Reads reader bytes value
  cut : ∀ part, part <+: bytes → part ≠ bytes → ∀ offset, ∃ place ≤ offset + part.length,
    reader ⟨offset, part⟩ = .error (.truncated place)

namespace Consumes

variable {reader : Reader α} {bytes more : Bytes} {value : α}

/-- Nothing cannot end too early. -/
theorem of_nil (h : Reads reader [] value) : Consumes reader [] value where
  reads := h
  cut _ hpart hne := absurd (List.prefix_nil.mp hpart) hne

theorem take (bytes : Bytes) : Consumes (Reader.take bytes.length) bytes bytes where
  reads := reads_take bytes
  cut part hpart hne offset := by
    have hlt := lt_of_le_of_ne hpart.length_le fun heq => hne (hpart.eq_of_length heq)
    refine ⟨offset, Nat.le_add_right _ _, ?_⟩
    rw [Reader.take, Cursor.take?_eq_none_iff.mpr hlt]

theorem bind {following : α → Reader β} {result : β} (hfirst : Consumes reader bytes value)
    (hnext : Consumes (following value) more result) :
    Consumes (reader >>= following) (bytes ++ more) result where
  reads := hfirst.reads.bind hnext.reads
  cut part hpart hne offset := by
    rcases Bytes.cut_append hpart hne with ⟨hfront, hne⟩ | ⟨left, rfl, hleft, hne⟩
    · obtain ⟨place, hplace, hcut⟩ := hfirst.cut part hfront hne offset
      refine ⟨place, hplace, ?_⟩
      change (reader ⟨offset, part⟩ >>= _) = _
      rw [hcut]
      rfl
    · obtain ⟨place, hplace, hcut⟩ := hnext.cut left hleft hne (offset + bytes.length)
      refine ⟨place, ?_, ?_⟩
      · rw [List.length_append]
        omega
      · rw [hfirst.reads.run_bind, hcut]

end Consumes

/-- For whatever the reader reads, it has consumed the bytes that are gone. -/
def Sequential (reader : Reader α) : Prop :=
  ∀ cursor value next, reader cursor = .ok (value, next) →
    ∃ bytes, cursor.rest = bytes ++ next.rest ∧ Consumes reader bytes value

namespace Sequential

theorem pure (value : α) : Sequential (Pure.pure value : Reader α) := by
  intro cursor _ next h
  cases h
  exact ⟨[], rfl, .of_nil (Reads.pure value)⟩

theorem throw (fault : Fault) : Sequential (MonadExcept.throw fault : Reader α) := by
  intro cursor _ next h
  cases h

/-- What takes nothing may fail, but it does so in the same way wherever it stands. -/
theorem lift (answer : Except Fault α) : Sequential (liftM answer : Reader α) := by
  cases answer with
  | error fault =>
    intro cursor _ next h
    cases h
  | ok value =>
    intro cursor _ next h
    cases h
    exact ⟨[], rfl, .of_nil (reads_lift rfl)⟩

theorem take (count : Nat) : Sequential (Reader.take count) := by
  intro cursor bytes next h
  unfold Reader.take at h
  split at h
  · next taken htaken =>
    cases h
    obtain ⟨rfl, hrest, -⟩ := Cursor.take?_eq_some_iff.mp htaken
    exact ⟨bytes, hrest, .take bytes⟩
  · cases h

theorem bind {reader : Reader α} {following : α → Reader β} (hreader : Sequential reader)
    (hfollowing : ∀ value, Sequential (following value)) : Sequential (reader >>= following) := by
  intro cursor result last h
  obtain ⟨⟨value, middle⟩, hfirst, hrest⟩ := exists_of_bind_eq_ok h
  obtain ⟨bytes, hbytes, hconsumes⟩ := hreader cursor value middle hfirst
  obtain ⟨more, hmore, hconsumesMore⟩ := hfollowing value middle result last hrest
  refine ⟨bytes ++ more, ?_, hconsumes.bind hconsumesMore⟩
  rw [hbytes, hmore, List.append_assoc]

theorem map {reader : Reader α} (f : α → β) (h : Sequential reader) : Sequential (f <$> reader) :=
  h.bind fun value => pure (f value)

theorem skip (count : Nat) : Sequential (Reader.skip count) := (take count).bind fun _ => pure ()

theorem number (width : Nat) : Sequential (Reader.number width) :=
  (take width).bind fun _ => pure _

theorem times {reader : Reader Unit} (h : Sequential reader) (count : Nat) :
    Sequential (Reader.times reader count) := by
  induction count with
  | zero => exact pure ()
  | succ count ih => exact h.bind fun _ => ih

theorem constant (tag : Nat) (slot : UInt16) : Sequential (Constant.read tag slot) := by
  have hskip (count : Nat) (wide : Bool) :
      Sequential (Reader.skip count >>= fun _ => Pure.pure (Constant.other, wide)) :=
    (skip count).bind fun _ => pure _
  unfold Constant.read
  split
  · exact (number 2).bind fun _ => (take _).bind fun _ => pure _
  · exact (number 2).bind fun _ => pure _
  all_goals first | exact hskip _ _ | exact throw _

end Sequential

end TestCoverage.ClassFile

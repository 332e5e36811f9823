import TestCoverage.Bytes

/-!
# Taking a byte string apart from the front

A cursor is what is left of a byte string, with the offset where it begins. Bytes are taken
off the front; `take?_eq_some_iff` says when there are enough of them and what is left then.
-/

namespace TestCoverage

/-- What is left of a byte string, and the offset where it begins. -/
structure Cursor where
  offset : Nat
  rest : Bytes
deriving DecidableEq, Repr

namespace Cursor

def start (bytes : Bytes) : Cursor := ⟨0, bytes⟩

/-- The next `count` bytes and what is left after them, unless fewer are left. -/
def take? (count : Nat) (cursor : Cursor) : Option (Bytes × Cursor) :=
  let bytes := cursor.rest.take count
  if bytes.length = count then some (bytes, ⟨cursor.offset + count, cursor.rest.drop count⟩)
  else none

theorem take?_eq_some_iff {count : Nat} {cursor next : Cursor} {bytes : Bytes} :
    cursor.take? count = some (bytes, next) ↔
      bytes.length = count ∧ cursor.rest = bytes ++ next.rest ∧
        next.offset = cursor.offset + count := by
  constructor
  · intro h
    rw [take?] at h
    split at h
    · next hlength =>
      obtain ⟨rfl, rfl⟩ : cursor.rest.take count = bytes ∧
          (⟨cursor.offset + count, cursor.rest.drop count⟩ : Cursor) = next := by simpa using h
      exact ⟨hlength, (List.take_append_drop count cursor.rest).symm, rfl⟩
    · simp at h
  · rintro ⟨rfl, hrest, hoffset⟩
    obtain ⟨offset, rest⟩ := next
    subst hoffset
    simp [take?, hrest]

theorem take?_eq_none_iff {count : Nat} {cursor : Cursor} :
    cursor.take? count = none ↔ cursor.rest.length < count := by
  rw [take?, List.length_take]
  split
  · simp; omega
  · simp; omega

end Cursor

end TestCoverage

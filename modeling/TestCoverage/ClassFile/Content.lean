import TestCoverage.Bytes

/-!
# Kinds of content

Class files and archives are known by their first four bytes, whatever the file is called.
-/

namespace TestCoverage

/-- What a file holds. -/
inductive Content where
  | classFile
  | archive
  | unknown
deriving DecidableEq, Repr

/-- The kind of content that begins with these bytes. -/
def Content.ofBytes : Bytes → Content
  | 0xCA :: 0xFE :: 0xBA :: 0xBE :: _ => .classFile
  | 0x50 :: 0x4B :: 0x03 :: 0x04 :: _ => .archive
  | _ => .unknown

/-- The kind of content of a file. -/
def Content.ofFile (file : ByteArray) : Content := .ofBytes (file.extract 0 4).data.toList

theorem Content.ofBytes_take (bytes : Bytes) : ofBytes (bytes.take 4) = ofBytes bytes := by
  match bytes with
  | [] | [_] | [_, _] | [_, _, _] => rfl
  | a :: b :: c :: d :: rest =>
    unfold ofBytes
    split <;> split <;> simp_all

/-- All bytes tell the same as the first four. -/
theorem Content.ofFile_eq (file : ByteArray) : ofFile file = ofBytes file.data.toList := by
  rw [ofFile, ByteArray.data_extract, Array.toList_extract]
  exact ofBytes_take _

end TestCoverage

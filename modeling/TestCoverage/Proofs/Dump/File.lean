import Mathlib
import TestCoverage.Dump.File
import TestCoverage.Proofs.Dump.Payload
import TestCoverage.Proofs.Files.Write

/-!
# Saving and loading payloads

A file with a payload is told from its path. What was saved is there to be loaded.

* `Payload.load_save`: saved dumps are loaded again without the records that have no hit.
* `Payload.provenance_of_load`: a payload that cannot be read is named by its path.
-/

namespace TestCoverage.Payload

variable {tree after : FileTree} {path : Bytes} {dumps : List Dump}

theorem save_eq_ok (h : save tree path dumps = (after, .ok ())) :
    (write dumps).rejection = none ∧ tree.write path (write dumps).bytes = .ok after := by
  unfold save at h
  dsimp only at h
  split at h
  · cases h
  · next hwrite =>
    split at h
    · cases h
    · next hrejection =>
      obtain ⟨rfl, -⟩ := Prod.mk.inj h
      exact ⟨hrejection, hwrite⟩

/-- Saved dumps are loaded again without the records that have no hit. -/
theorem load_save (htree : tree.isDirectory = true)
    (h : save tree path dumps = (after, .ok ())) :
    load after path = .ok (dumps.map Dump.pruned) := by
  obtain ⟨hrejection, hwrite⟩ := save_eq_ok h
  unfold load
  rw [FileTree.read_of_write htree hwrite]
  dsimp only
  rw [decode_write hrejection]
  rfl

/-- A payload that cannot be read is named by its path, even if it is a directory. -/
theorem provenance_of_load {fault : MalformedPayload}
    (h : load tree path = .error (.malformed fault)) : fault.provenance = path.toText := by
  unfold load at h
  split at h
  · next bytes hread =>
    unfold decode at h
    cases hpayload : read bytes with
    | ok dumps =>
      rw [hpayload] at h
      cases h
    | error found =>
      rw [hpayload] at h
      cases h
      rfl
  · cases h
    rfl
  · cases h

end TestCoverage.Payload

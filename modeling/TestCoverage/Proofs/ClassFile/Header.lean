import Mathlib
import TestCoverage.ClassFile.Header
import TestCoverage.Proofs.Bytes.Cursor
import TestCoverage.Proofs.ClassFile.Layout
import TestCoverage.Proofs.Text.ModifiedUtf8

/-!
# Headers of laid out class files

Reading a header passes over everything that does not matter by exactly its size, whatever it
is, and so comes to the references that do.

* `reads_constant`, `reads_constants`: each kind of constant is taken as a whole, and after all
  of them the pool holds in each slot what the layout has there.
* `reads_skipAttribute`, `reads_skipMember`: fields, methods and their attributes are passed
  over.
* `reads_sourceFile`: of the class attributes the last one that names a source file counts.
* `Header.read_write`: the header of a class file that is laid out as `Layout` says.
-/

namespace TestCoverage.ClassFile

/-! ## Fields -/

theorem reads_take (bytes : Bytes) : Reads (Reader.take bytes.length) bytes bytes := by
  intro offset rest
  rw [Reader.take, Cursor.take?_append]

theorem reads_skip {bytes : Bytes} {count : Nat} (h : bytes.length = count) :
    Reads (Reader.skip count) bytes () := by
  subst h
  exact (reads_take bytes).last (Reads.pure ())

theorem reads_number {width n : Nat} (h : n < 256 ^ width) :
    Reads (Reader.number width) (Bytes.bigEndian width n) n := by
  have htake := reads_take (Bytes.bigEndian width n)
  rw [Bytes.length_bigEndian] at htake
  apply htake.last
  rw [Bytes.ofBigEndian_bigEndian h]
  exact Reads.pure n

theorem reads_u2 (n : UInt16) : Reads (Reader.number 2) (u2 n) n.toNat :=
  reads_number n.toNat_lt

theorem length_u2 (n : UInt16) : (u2 n).length = 2 := Bytes.length_bigEndian 2 n.toNat

theorem length_u2_u2 (a b : UInt16) : (u2 a ++ u2 b).length = 4 := by
  rw [List.length_append, length_u2, length_u2]

theorem length_u4 (n : UInt32) : (u4 n).length = 4 := Bytes.length_bigEndian 4 n.toNat

theorem length_u8 (n : UInt64) : (u8 n).length = 8 := Bytes.length_bigEndian 8 n.toNat

theorem reads_times {α : Type} {reader : Reader Unit} {row : α → Bytes} {rows : List α}
    (h : ∀ a ∈ rows, Reads reader (row a) ()) :
    Reads (Reader.times reader rows.length) (rows.flatMap row) () := by
  induction rows with
  | nil => exact Reads.pure ()
  | cons a rest ih =>
    obtain ⟨hfirst, hrest⟩ := List.forall_mem_cons.mp h
    rw [List.flatMap_cons, List.length_cons, Reader.times]
    exact hfirst.bind (ih hrest)

/-- A number of rows and then so many rows. -/
theorem reads_table {α : Type} {reader : Reader Unit} {row : α → Bytes} {rows : List α}
    (hfits : rows.length < 65536) (h : ∀ a ∈ rows, Reads reader (row a) ()) :
    Reads (Reader.number 2 >>= Reader.times reader) (writeTable row rows) () :=
  (reads_number hfits).bind (reads_times h)

/-! ## The constant pool -/

namespace PoolConstant

/-- What is kept of a constant. -/
def kept : PoolConstant → Constant
  | utf8 bytes _ => .text bytes
  | «class» name => .class name.toNat
  | _ => .other

def isWide : PoolConstant → Bool
  | long _ => true
  | double _ => true
  | _ => false

end PoolConstant

/-- What is kept of a slot. -/
def keptSlot : Option PoolConstant → Constant
  | some constant => constant.kept
  | none => .nothing

theorem keptSlot_slots (constant : PoolConstant) :
    constant.slots.map keptSlot =
      constant.kept :: if constant.isWide then [.nothing] else [] := by
  cases constant <;> rfl

/-- A constant of which nothing is kept is passed over. -/
theorem reads_other {bytes : Bytes} {count : Nat} (h : bytes.length = count) (wide : Bool) :
    Reads (Reader.skip count >>= fun _ => pure (Constant.other, wide)) bytes
      (Constant.other, wide) :=
  (reads_skip h).last (Reads.pure _)

theorem reads_constant (constant : PoolConstant) (slot : UInt16) :
    Reads (Constant.read constant.tag.toNat slot) constant.body
      (constant.kept, constant.isWide) := by
  cases constant with
  | utf8 bytes fits =>
    exact (reads_number fits).bind ((reads_take bytes).last (Reads.pure _))
  | integer bits => exact reads_other (length_u4 bits) false
  | float bits => exact reads_other (length_u4 bits) false
  | long bits => exact reads_other (length_u8 bits) true
  | double bits => exact reads_other (length_u8 bits) true
  | «class» name => exact (reads_u2 name).last (Reads.pure _)
  | string text => exact reads_other (length_u2 text) false
  | fieldRef owner member => exact reads_other (length_u2_u2 _ _) false
  | methodRef owner member => exact reads_other (length_u2_u2 _ _) false
  | interfaceMethodRef owner member => exact reads_other (length_u2_u2 _ _) false
  | nameAndType name type => exact reads_other (length_u2_u2 _ _) false
  | methodHandle kind target => exact reads_other (congrArg (· + 1) (length_u2 target)) false
  | methodType type => exact reads_other (length_u2 type) false
  | dynamic bootstrap member => exact reads_other (length_u2_u2 _ _) false
  | invokeDynamic bootstrap member => exact reads_other (length_u2_u2 _ _) false
  | moduleName name => exact reads_other (length_u2 name) false
  | packageName name => exact reads_other (length_u2 name) false

theorem reads_tag (constant : PoolConstant) :
    Reads (Reader.number 1) [constant.tag] constant.tag.toNat := by
  have hbytes : [constant.tag] = Bytes.bigEndian 1 constant.tag.toNat := by
    simp [Bytes.bigEndian]
  rw [hbytes]
  exact reads_number constant.tag.toNat_lt

theorem length_slots (constant : PoolConstant) :
    constant.slots.length = if constant.isWide then 2 else 1 := by
  cases constant <;> rfl

theorem length_le_length_write (constants : List PoolConstant) :
    constants.length ≤ (constants.flatMap PoolConstant.write).length := by
  induction constants with
  | nil => simp
  | cons constant rest ih =>
    rw [List.flatMap_cons, List.length_append, List.length_cons, PoolConstant.write,
      List.length_cons]
    omega

variable {count : UInt16}

theorem toNat_add_one {slot : UInt16} (h : slot.toNat < count.toNat) :
    (slot + 1).toNat = slot.toNat + 1 := by
  have hcount := count.toNat_lt
  rw [UInt16.toNat_add, UInt16.toNat_one]
  omega

/-- Constants are read until their slots reach the declared count. -/
theorem reads_constants {constants : List PoolConstant} {steps : Nat} {slot : UInt16}
    (hsteps : constants.length ≤ steps)
    (hslots : slot.toNat + (constants.flatMap PoolConstant.slots).length = count.toNat)
    (pool : Pool) :
    Reads (Pool.readFrom count steps slot pool) (constants.flatMap PoolConstant.write)
      (pool ++ ((constants.flatMap PoolConstant.slots).map keptSlot).toArray) := by
  induction constants generalizing steps slot pool with
  | nil =>
    have hend : ¬ slot < count := by
      rw [UInt16.lt_iff_toNat_lt]
      simp at hslots
      omega
    unfold Pool.readFrom
    rw [if_neg hend]
    simpa using Reads.pure pool
  | cons constant rest ih =>
    rw [List.length_cons] at hsteps
    obtain ⟨more, rfl⟩ : ∃ more, steps = more + 1 := ⟨steps - 1, by omega⟩
    rw [List.flatMap_cons, List.length_append, length_slots] at hslots
    have hlt : slot.toNat < count.toNat := by
      split at hslots <;> omega
    have hnext := toNat_add_one hlt
    rw [Pool.readFrom, if_pos (UInt16.lt_iff_toNat_lt.mpr hlt)]
    change Reads _ ([constant.tag] ++ (constant.body ++ rest.flatMap PoolConstant.write)) _
    refine (reads_tag constant).bind ((reads_constant constant slot).bind ?_)
    rw [List.flatMap_cons, List.map_append, keptSlot_slots]
    dsimp only
    cases hwide : constant.isWide with
    | false =>
      rw [hwide] at hslots
      simp only [Bool.false_eq_true, if_false] at hslots ⊢
      have hrest := @ih more (slot + 1) (by omega) (by omega) (pool.push constant.kept)
      simpa using hrest
    | true =>
      rw [hwide] at hslots
      simp only [if_true] at hslots ⊢
      have hsecond : (slot + 1).toNat < count.toNat := by omega
      have hafter := toNat_add_one hsecond
      have hrest := @ih more (slot + 1 + 1) (by omega) (by omega)
        ((pool.push constant.kept).push .nothing)
      simpa using hrest

/-- After the declared count comes what fills the slots. -/
theorem reads_pool (file : Layout) :
    Reads Pool.read
      (Bytes.bigEndian 2 file.pool.length ++ file.constants.flatMap PoolConstant.write)
      (file.pool.map keptSlot).toArray := by
  have hfits : file.pool.length < 65536 := by
    rw [Layout.pool, List.length_cons]
    have := file.constants_fit
    omega
  unfold Pool.read
  refine (reads_number hfits).bind fun offset rest => ?_
  have hsteps : file.constants.length ≤
      (file.constants.flatMap PoolConstant.write ++ rest).length := by
    have hwrite := length_le_length_write file.constants
    rw [List.length_append]
    omega
  have hslots : (1 : UInt16).toNat + (file.constants.flatMap PoolConstant.slots).length =
      (UInt16.ofNat file.pool.length).toNat := by
    rw [UInt16.toNat_ofNat', Nat.mod_eq_of_lt hfits, Layout.pool, List.length_cons,
      UInt16.toNat_one, Nat.add_comm]
  have hread := reads_constants hsteps hslots #[.nothing] offset rest
  rw [List.append_toArray] at hread
  exact hread

/-! ## References into the pool -/

/-- A step that takes nothing. -/
theorem reads_lift {α : Type} {answer : Except Fault α} {value : α} (h : answer = .ok value) :
    Reads (liftM answer : Reader α) [] value := by
  subst h
  exact fun _ _ => rfl

namespace Layout

variable {file : Layout} {slot : Nat} {name : String}

theorem text_pool (h : file.text? slot = some name) :
    Pool.text (file.pool.map keptSlot).toArray slot = .ok name := by
  unfold text? at h
  split at h
  · next bytes fits hslot =>
    have hkept : (file.pool.map keptSlot).toArray[slot]? = some (.text bytes) := by
      simp [hslot, keptSlot, PoolConstant.kept]
    rw [Pool.text, hkept]
    dsimp only
    rw [h]
  · cases h

theorem className_pool (h : file.className? slot = some name) :
    Pool.className (file.pool.map keptSlot).toArray slot = .ok name := by
  unfold className? at h
  split at h
  · next target hslot =>
    have hkept : (file.pool.map keptSlot).toArray[slot]? = some (.class target.toNat) := by
      simp [hslot, keptSlot, PoolConstant.kept]
    rw [Pool.className, hkept]
    exact text_pool h
  · cases h

end Layout

/-! ## Attributes and members -/

theorem reads_skipAttribute (attr : Attribute) : Reads skipAttribute attr.write () := by
  unfold skipAttribute Attribute.write
  rw [List.append_assoc]
  exact (reads_skip (length_u2 attr.name)).bind ((reads_number attr.fits).bind (reads_skip rfl))

theorem reads_skipMember (member : Member) : Reads skipMember member.write () := by
  have hhead : (u2 member.flags ++ u2 member.name ++ u2 member.type).length = 6 := by
    rw [List.length_append, length_u2_u2, length_u2]
  exact (reads_skip hhead).bind
    (reads_table member.fits fun attr _ => reads_skipAttribute attr)

/-- What a list of attributes says of the source file, or else what was found before. -/
theorem reads_sourceFile {file : Layout} {attributes : List Attribute}
    (hnames : ∀ attr ∈ attributes, ∃ name, file.text? attr.name.toNat = some name)
    (hsources : ∀ attr ∈ attributes, file.NamesSource attr →
      ∃ source, file.sourceOf? attr = some source) (found : Option String) :
    Reads (readSourceFile (file.pool.map keptSlot).toArray attributes.length found)
      (attributes.flatMap Attribute.write)
      (((attributes.filter fun attr => file.NamesSource attr).getLast?.bind
        file.sourceOf?).or found) := by
  induction attributes generalizing found with
  | nil => exact Reads.pure found
  | cons attr rest ih =>
    obtain ⟨⟨name, hname⟩, hnames⟩ := List.forall_mem_cons.mp hnames
    obtain ⟨hsource, hsources⟩ := List.forall_mem_cons.mp hsources
    have ih := ih hnames hsources
    rw [List.flatMap_cons, List.length_cons, readSourceFile, Attribute.write, List.append_assoc,
      List.append_assoc]
    refine (reads_u2 attr.name).bind ((reads_number attr.fits).bind
      ((reads_take attr.body).bind ?_))
    refine (reads_lift (Layout.text_pool hname)).bind_nil ?_
    by_cases hnamed : file.NamesSource attr
    · obtain ⟨source, hfound⟩ := hsource hnamed
      obtain rfl : name = "SourceFile" := Option.some.inj (hname.symm.trans hnamed.1)
      rw [if_pos ⟨rfl, hnamed.2⟩]
      refine (reads_lift (Layout.text_pool hfound)).bind_nil ?_
      -- the last of all is the last of the others, if there is one among them
      have hlast : (((attr :: rest).filter fun other => file.NamesSource other).getLast?.bind
            file.sourceOf?).or found =
          ((rest.filter fun other => file.NamesSource other).getLast?.bind
            file.sourceOf?).or (some source) := by
        rw [List.filter_cons_of_pos (by simpa using hnamed), List.getLast?_cons]
        cases hother : (rest.filter fun other => file.NamesSource other).getLast? with
        | none =>
          rw [Option.getD_none, Option.bind_some, hfound]
          rfl
        | some other =>
          obtain ⟨hmem, hnamed⟩ := List.mem_filter.mp (List.mem_of_getLast? hother)
          obtain ⟨last, hfound⟩ := hsources other hmem (by simpa using hnamed)
          rw [Option.getD_some, Option.bind_some, hfound]
          rfl
      rw [hlast]
      exact ih (some source)
    · have hother : ¬ (name = "SourceFile" ∧ attr.body.length = 2) := by
        rintro ⟨rfl, hbody⟩
        exact hnamed ⟨hname, hbody⟩
      rw [if_neg hother, List.filter_cons_of_neg (by simpa using hnamed)]
      exact ih found

/-! ## Headers -/

theorem superName?_eq_none_iff {file : Layout}
    (h : file.superClass = 0 ∨ ∃ super, file.className? file.superClass.toNat = some super) :
    file.superName? = none ↔ file.superClass = 0 := by
  unfold Layout.superName?
  split
  · next hzero => simp [hzero]
  · next hne =>
    obtain hzero | ⟨super, hsuper⟩ := h
    · exact absurd hzero hne
    · simp [hsuper, hne]

/-- A header is read off the front of a file that is laid out. -/
theorem reads_header {file : Layout} {name : String}
    (hname : file.className? file.thisClass.toNat = some name)
    (hsuper : file.superClass = 0 ∨
      ∃ super, file.className? file.superClass.toNat = some super)
    (hnames : ∀ attr ∈ file.attributes, ∃ name, file.text? attr.name.toNat = some name)
    (hsources : ∀ attr ∈ file.attributes, file.NamesSource attr →
      ∃ source, file.sourceOf? attr = some source) :
    Reads Header.reader file.write
      ⟨file.minorVersion.toNat, file.majorVersion.toNat, name, file.superName?,
        file.sourceFile?⟩ := by
  have hfits : magic < 256 ^ 4 := by decide
  have hmagic : Reads (Reader.number 4) [0xCA, 0xFE, 0xBA, 0xBE] magic := reads_number hfits
  have hinterfaces : (file.interfaces.flatMap u2).length = 2 * file.interfaces.length := by
    simp [List.length_flatMap, length_u2, Nat.mul_comm]
  have hsource := reads_sourceFile hnames hsources none
  rw [Option.or_none] at hsource
  unfold Header.reader Layout.write
  simp only [writeTable, List.append_assoc]
  refine hmagic.bind ?_
  rw [if_neg (by decide)]
  refine (reads_u2 file.minorVersion).bind ((reads_u2 file.majorVersion).bind ?_)
  rw [← List.append_assoc]
  refine (reads_pool file).bind ?_
  refine (reads_skip (length_u2 file.flags)).bind ?_
  refine (reads_u2 file.thisClass).bind ((reads_u2 file.superClass).bind ?_)
  refine (reads_number file.interfaces_fit).bind ((reads_skip hinterfaces).bind ?_)
  refine (reads_number file.fields_fit).bind
    ((reads_times fun member _ => reads_skipMember member).bind ?_)
  refine (reads_number file.methods_fit).bind
    ((reads_times fun member _ => reads_skipMember member).bind ?_)
  refine (reads_number file.attributes_fit).bind (hsource.last ?_)
  refine (reads_lift (Layout.className_pool hname)).bind_nil ?_
  by_cases hzero : file.superClass = 0
  · have hnone := (superName?_eq_none_iff hsuper).mpr hzero
    rw [hnone, hzero]
    exact Reads.pure _
  · obtain ⟨super, hfound⟩ := hsuper.resolve_left hzero
    have hsome : file.superName? = some super := by
      rw [Layout.superName?, if_neg hzero, hfound]
    have hslot : file.superClass.toNat ≠ 0 := by
      intro hslot
      exact hzero (UInt16.toNat_inj.mp hslot)
    have hmap : Reads (some <$> liftM (Except.ok super : Except Fault String) : Reader _) []
        (some super) := fun _ _ => rfl
    rw [hsome, if_neg hslot, Layout.className_pool hfound]
    exact hmap.bind_nil (Reads.pure _)

/-- Whatever else is in a class file and whatever follows it: the version is read as it is laid
out, the name of the class and that of its super class as they are referred to, and the name
of the source file as the last attribute says that names one. -/
theorem Header.read_write (file : Layout) (trailing : Bytes) {name : String}
    (hname : file.className? file.thisClass.toNat = some name)
    (hsuper : file.superClass = 0 ∨
      ∃ super, file.className? file.superClass.toNat = some super)
    (hnames : ∀ attr ∈ file.attributes, ∃ name, file.text? attr.name.toNat = some name)
    (hsources : ∀ attr ∈ file.attributes, file.NamesSource attr →
      ∃ source, file.sourceOf? attr = some source) :
    Header.read (file.write ++ trailing) =
        .ok ⟨file.minorVersion.toNat, file.majorVersion.toNat, name, file.superName?,
          file.sourceFile?⟩ ∧
      (file.superName? = none ↔ file.superClass = 0) := by
  refine ⟨?_, superName?_eq_none_iff hsuper⟩
  have hread := reads_header hname hsuper hnames hsources 0 trailing
  unfold Header.read
  rw [StateT.run, Cursor.start, hread]
  rfl

/-- A `long` takes the first two slots, and of three attributes for the source file the last one
with two bytes counts. -/
theorem Header.read_write_last_source :
    let text (s : String) (fits : (Text.ModifiedUtf8.encode s.toList).length < 65536) :=
      PoolConstant.utf8 (Text.ModifiedUtf8.encode s.toList) fits
    let constants : List PoolConstant :=
      [.long 7, text "A" (by decide), .class 3, text "SourceFile" (by decide),
        text "A.java" (by decide), text "B.java" (by decide)]
    let method : Member := ⟨1, 3, 3, [⟨5, [0, 0, 0], by decide⟩], by decide⟩
    let attributes : List Attribute :=
      [⟨5, [0, 6], by decide⟩, ⟨5, [0, 7], by decide⟩, ⟨5, [0, 6, 0], by decide⟩]
    let file : Layout :=
      ⟨0, 52, constants, by decide, 0x21, 4, 0, [4], by decide, [], by decide, [method],
        by decide, attributes, by decide⟩
    Header.read (file.write ++ [0xFF]) = .ok ⟨0, 52, "A", none, some "B.java"⟩ := by
  intro text constants method attributes file
  have hname : file.className? 4 = some "A" := Text.ModifiedUtf8.decode_encode "A"
  have hsourceFile : file.text? 5 = some "SourceFile" :=
    Text.ModifiedUtf8.decode_encode "SourceFile"
  have hfirst : file.text? 6 = some "A.java" := Text.ModifiedUtf8.decode_encode "A.java"
  have hsecond : file.text? 7 = some "B.java" := Text.ModifiedUtf8.decode_encode "B.java"
  have hnames : ∀ attr ∈ file.attributes, ∃ name, file.text? attr.name.toNat = some name := by
    intro attr hattr
    have hslot : attr.name.toNat = 5 := by
      revert attr
      decide
    exact ⟨_, hslot ▸ hsourceFile⟩
  have hsources : ∀ attr ∈ file.attributes, file.NamesSource attr →
      ∃ source, file.sourceOf? attr = some source := by
    rintro attr hattr ⟨-, hlength⟩
    simp only [file, attributes, List.mem_cons, List.not_mem_nil, or_false] at hattr
    rcases hattr with rfl | rfl | rfl
    · exact ⟨_, hfirst⟩
    · exact ⟨_, hsecond⟩
    · cases hlength
  have hlast : file.sourceFile? = some "B.java" := by decide +kernel
  obtain ⟨hread, -⟩ := Header.read_write file [0xFF] hname (.inl rfl) hnames hsources
  rw [hread, hlast]
  rfl

end TestCoverage.ClassFile

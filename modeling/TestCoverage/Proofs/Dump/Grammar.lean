import Mathlib
import TestCoverage.Proofs.Dump.Block

/-!
# The grammar of blocks

Which bytes are a block is said without a reader: by `SpellsText`, `SpellsGroups`,
`SpellsCount` and `SpellsProbes` for the parts and by `Block.Spells` for the whole. A number
in groups may have leading groups of zeros, and the bits of the last byte that no probe needs
are free.

A reader recognizes a part of the grammar (`Recognizes`) if it takes the bytes that spell a
value, takes no others, and finds bytes that end too early truncated. Readers in sequence
recognize parts in sequence (`Recognizes.bind`), so the reader of a block recognizes blocks:

* `exists_spells_of_read`: the bytes that are taken spell the block.
* `reads_of_spells`: bytes that spell a block are taken, whatever follows them.
* `read_of_cut`: a block that ends too early is truncated.
-/

namespace TestCoverage

namespace Block

/-! ## The grammar -/

/-- The bytes are a text: its length in two bytes, then the text in modified UTF-8. -/
inductive SpellsText : Bytes → String → Prop where
  | mk {encoded : Bytes} {text : String} (hlength : encoded.length < 65536)
      (hdecode : Text.ModifiedUtf8.decode encoded = some text) :
      SpellsText (Bytes.bigEndian 2 encoded.length ++ encoded) text

/-- The bytes are a number in groups of seven bits, the least significant first. The highest
bit of a byte says that another group follows. -/
inductive SpellsGroups : Bytes → Nat → Prop where
  | last {byte : UInt8} (hlast : byte.toNat < 0x80) : SpellsGroups [byte] byte.toNat
  | more {byte : UInt8} {rest : Bytes} {high : Nat} (hmore : 0x80 ≤ byte.toNat)
      (hrest : SpellsGroups rest high) :
      SpellsGroups (byte :: rest) (byte.toNat - 0x80 + 0x80 * high)

/-- The bytes are a number of probes: one to five groups for a number of 32 bits. -/
def SpellsCount (bytes : Bytes) (count : Nat) : Prop :=
  SpellsGroups bytes count ∧ bytes.length ≤ 5 ∧ count < 2 ^ 32

/-- The bytes are probes, eight to a byte with the lowest bit first, in as many bytes as they
need. -/
def SpellsProbes (bytes : Bytes) (probes : List Bool) : Prop :=
  bytes.length = (probes.length + 7) / 8 ∧
    ∀ i < probes.length, probes[i]? = bytes[i / 8]?.map (·.toNat.testBit (i % 8))

/-- The bytes are a block. -/
inductive Spells : Bytes → Block → Prop where
  | header : Spells [0x01, 0xC0, 0xC0, 0x10, 0x07] .header
  | session {id : Bytes} {info : Session} (hid : SpellsText id info.id) :
      Spells (0x10 :: (id ++ (Bytes.bigEndian 8 info.start.toUInt64.toNat ++
        Bytes.bigEndian 8 info.dump.toUInt64.toNat))) (.session info)
  | record {name count probes : Bytes} {data : ProbeRecord}
      (hname : SpellsText name data.hits.className)
      (hcount : SpellsCount count data.hits.probes.length)
      (hprobes : SpellsProbes probes data.hits.probes) :
      Spells (0x11 :: (Bytes.bigEndian 8 data.id.bits.toNat ++ (name ++ (count ++ probes))))
        (.record data)

/-! ## Readers that recognize a part of the grammar -/

/-- The reader takes the bytes that spell a value and no others, and finds bytes that end too
early truncated. -/
structure Recognizes {α : Type} (reader : Reader α) (kind : Kind) (spells : Bytes → α → Prop) :
    Prop where
  sound : ∀ {cursor next : Cursor} {value : α}, reader cursor = .ok (value, next) →
    ∃ bytes, spells bytes value ∧ cursor.rest = bytes ++ next.rest
  complete : ∀ {bytes : Bytes} {value : α}, spells bytes value → Reads reader bytes value
  cut : ∀ {bytes part : Bytes} {value : α}, spells bytes value → part <+: bytes → part ≠ bytes →
    ∀ offset, reader ⟨offset, part⟩ = .error (.truncated kind)

namespace Recognizes

variable {α β : Type} {reader : Reader α} {kind : Kind} {spells other : Bytes → α → Prop}

theorem congr (h : Recognizes reader kind spells)
    (hsame : ∀ bytes value, other bytes value ↔ spells bytes value) :
    Recognizes reader kind other where
  sound hread := by
    obtain ⟨bytes, hspells, hrest⟩ := h.sound hread
    exact ⟨bytes, (hsame _ _).mpr hspells, hrest⟩
  complete hspells := h.complete ((hsame _ _).mp hspells)
  cut hspells := h.cut ((hsame _ _).mp hspells)

theorem pure (kind : Kind) (value : α) :
    Recognizes (Pure.pure value) kind fun bytes result => bytes = [] ∧ result = value where
  sound hread := by
    obtain ⟨rfl, rfl⟩ := Prod.mk.inj (Except.ok.inj hread)
    exact ⟨[], ⟨rfl, rfl⟩, rfl⟩
  complete hspells := by
    obtain ⟨rfl, rfl⟩ := hspells
    exact Reads.pure _
  cut hspells hpart hne := by
    obtain ⟨rfl, rfl⟩ := hspells
    exact absurd (List.prefix_nil.mp hpart) hne

/-- A reader that never succeeds recognizes nothing. -/
theorem nothing (kind : Kind) (h : ∀ cursor result, reader cursor ≠ .ok result) :
    Recognizes reader kind fun _ _ => False where
  sound hread := absurd hread (h _ _)
  complete hspells := hspells.elim
  cut hspells := hspells.elim

theorem throw (kind : Kind) (fault : Fault) :
    Recognizes (MonadExcept.throw fault : Reader α) kind fun _ _ => False :=
  nothing kind fun _ _ h => by cases h

/-- A reader that fails under a condition recognizes what the other one does without it. -/
theorem guarded {condition : Prop} [Decidable condition] {failing : Reader α}
    (hfailing : ∀ cursor result, failing cursor ≠ .ok result)
    (h : ¬ condition → Recognizes reader kind spells) :
    Recognizes (if condition then failing else reader) kind fun bytes value =>
      ¬ condition ∧ spells bytes value := by
  split
  · next hcondition => exact (nothing kind hfailing).congr fun _ _ => by simp [hcondition]
  · next hcondition => exact (h hcondition).congr fun _ _ => by simp [hcondition]

theorem run_bind (reader : Reader α) (next : α → Reader β) (cursor : Cursor) :
    (reader >>= next) cursor = (reader cursor >>= fun (value, cursor) => next value cursor) := rfl

/-- Readers in sequence recognize parts in sequence. -/
theorem bind {next : α → Reader β} {more : α → Bytes → β → Prop}
    (hfirst : Recognizes reader kind spells)
    (hnext : ∀ {front value}, spells front value → Recognizes (next value) kind (more value)) :
    Recognizes (reader >>= next) kind fun bytes result =>
      ∃ front value rest, bytes = front ++ rest ∧ spells front value ∧ more value rest result where
  sound {cursor last result} hread := by
    rw [run_bind] at hread
    cases hvalue : reader cursor with
    | error fault => rw [hvalue] at hread; cases hread
    | ok answer =>
      obtain ⟨value, middle⟩ := answer
      rw [hvalue] at hread
      obtain ⟨front, hfront, hcursor⟩ := hfirst.sound hvalue
      obtain ⟨rest, hrest, hmiddle⟩ := (hnext hfront).sound hread
      refine ⟨front ++ rest, ⟨front, value, rest, rfl, hfront, hrest⟩, ?_⟩
      rw [hcursor, hmiddle, List.append_assoc]
  complete hspells := by
    obtain ⟨front, value, rest, rfl, hfront, hrest⟩ := hspells
    exact (hfirst.complete hfront).bind ((hnext hfront).complete hrest)
  cut {bytes part result} hspells hpart hne offset := by
    obtain ⟨front, value, rest, rfl, hfront, hrest⟩ := hspells
    rw [run_bind]
    rcases Bytes.cut_append hpart hne with ⟨hpart, hne⟩ | ⟨left, rfl, hleft, hne⟩
    · rw [hfirst.cut hfront hpart hne]
      rfl
    · rw [hfirst.complete hfront]
      exact (hnext hfront).cut hrest hleft hne _

end Recognizes

/-! ## Numbers and texts -/

theorem recognizes_take (kind : Kind) (count : Nat) :
    Recognizes (take kind count) kind fun bytes value => bytes = value ∧ bytes.length = count where
  sound {cursor next value} hread := by
    unfold take at hread
    split at hread
    · next taken htake =>
      obtain ⟨rfl⟩ := Except.ok.inj hread
      obtain ⟨hlength, hrest, -⟩ := Cursor.take?_eq_some_iff.mp htake
      exact ⟨value, ⟨rfl, hlength⟩, hrest⟩
    · cases hread
  complete hspells := by
    obtain ⟨rfl, rfl⟩ := hspells
    exact reads_take kind _
  cut hspells hpart hne offset := by
    obtain ⟨rfl, rfl⟩ := hspells
    have hlt := lt_of_le_of_ne hpart.length_le fun heq => hne (hpart.eq_of_length heq)
    rw [take, Cursor.take?_eq_none_iff.mpr hlt]

theorem recognizes_number (kind : Kind) (width : Nat) :
    Recognizes (number kind width) kind fun bytes n =>
      bytes = Bytes.bigEndian width n ∧ n < 256 ^ width := by
  refine ((recognizes_take kind width).bind fun _ => .pure kind _).congr fun bytes n => ?_
  constructor
  · rintro ⟨rfl, hn⟩
    refine ⟨_, _, [], (List.append_nil _).symm, ⟨rfl, Bytes.length_bigEndian width n⟩, rfl, ?_⟩
    exact (Bytes.ofBigEndian_bigEndian hn).symm
  · rintro ⟨front, _, _, rfl, ⟨rfl, rfl⟩, rfl, rfl⟩
    rw [List.append_nil]
    exact ⟨(Bytes.bigEndian_ofBigEndian front).symm, Bytes.ofBigEndian_lt front⟩

theorem recognizes_text (kind : Kind) : Recognizes (text kind) kind SpellsText := by
  refine ((recognizes_number kind 2).bind fun {_ length} _ =>
    @Recognizes.bind _ _ _ kind _ _
      (fun encoded bytes text => bytes = [] ∧ Text.ModifiedUtf8.decode encoded = some text)
      (recognizes_take kind length) fun {_ encoded} _ => ?_).congr fun bytes text => ?_
  · cases Text.ModifiedUtf8.decode encoded with
    | some text => exact (Recognizes.pure kind text).congr fun _ _ => by simp [eq_comm]
    | none => exact (Recognizes.throw kind _).congr fun _ _ => by simp
  constructor
  · rintro ⟨hlength, htext⟩
    exact ⟨_, _, _, rfl, ⟨rfl, by simpa using hlength⟩, _, _, [], (List.append_nil _).symm,
      ⟨rfl, rfl⟩, rfl, htext⟩
  · rintro ⟨_, length, _, rfl, ⟨rfl, hlength⟩, encoded, _, _, rfl, ⟨rfl, rfl⟩, rfl, htext⟩
    rw [List.append_nil]
    exact .mk (by simpa using hlength) htext

/-! ## Probes -/

theorem SpellsGroups.ne_nil {bytes : Bytes} {n : Nat} (h : SpellsGroups bytes n) : bytes ≠ [] := by
  cases h <;> simp

theorem recognizes_byte (kind : Kind) :
    Recognizes (number kind 1) kind fun bytes n => ∃ byte : UInt8, bytes = [byte] ∧ n = byte.toNat := by
  refine (recognizes_number kind 1).congr fun bytes n => ?_
  constructor
  · rintro ⟨byte, rfl, rfl⟩
    exact ⟨by simp [Bytes.bigEndian], byte.toNat_lt⟩
  · rintro ⟨rfl, hn⟩
    exact ⟨UInt8.ofNat n, rfl, by rw [UInt8.toNat_ofNat']; omega⟩

/-- The bytes are a number in at most `more` groups whose first one has its place at `shift`, of
32 bits with the places below it. -/
def SpellsGroupsFrom (more shift : Nat) (bytes : Bytes) (n : Nat) : Prop :=
  SpellsGroups bytes n ∧ bytes.length ≤ more ∧ n < 2 ^ (32 - shift)

theorem not_spellsGroupsFrom_zero {shift n : Nat} {bytes : Bytes} :
    ¬ SpellsGroupsFrom 0 shift bytes n := by
  rintro ⟨hgroups, hlength, -⟩
  exact hgroups.ne_nil (List.length_eq_zero_iff.mp (Nat.le_zero.mp hlength))

/-- A byte and what follows it are groups: none follows the last one. -/
theorem spellsGroupsFrom_cons_iff {more shift n : Nat} {byte : UInt8} {rest : Bytes}
    (hshift : shift + 7 * (more + 1) = 35) :
    SpellsGroupsFrom (more + 1) shift (byte :: rest) n ↔
      if byte.toNat < 0x80 then rest = [] ∧ byte.toNat < 2 ^ (32 - shift) ∧ n = byte.toNat
      else ∃ high, SpellsGroupsFrom more (shift + 7) rest high ∧
        n = byte.toNat % 0x80 + 0x80 * high := by
  have hbyte := byte.toNat_lt
  split
  · next hlast =>
    constructor
    · rintro ⟨hgroups, -, hn⟩
      cases hgroups with
      | last => exact ⟨rfl, hn, rfl⟩
      | more hmore => omega
    · rintro ⟨rfl, hn, rfl⟩
      exact ⟨.last hlast, by simp, hn⟩
  · next hmore =>
    have hlow : byte.toNat % 0x80 = byte.toNat - 0x80 := by omega
    -- where another group may follow, the bound leaves seven bits for this one
    have hbound (high : Nat) (hrest : SpellsGroups rest high) (hlength : rest.length ≤ more) :
        byte.toNat - 0x80 + 0x80 * high < 2 ^ (32 - shift) ↔ high < 2 ^ (32 - (shift + 7)) := by
      have hrest := List.length_pos_iff.mpr hrest.ne_nil
      have hpow : 2 ^ (32 - shift) = 0x80 * 2 ^ (32 - (shift + 7)) := by
        rw [show 32 - shift = 7 + (32 - (shift + 7)) by omega, Nat.pow_add]
      omega
    rw [hlow]
    constructor
    · rintro ⟨hgroups, hlength, hn⟩
      cases hgroups with
      | last hlast => omega
      | @more _ _ high _ hrest =>
        have hlength : rest.length ≤ more := Nat.le_of_succ_le_succ hlength
        exact ⟨high, ⟨hrest, hlength, (hbound high hrest hlength).mp hn⟩, rfl⟩
    · rintro ⟨high, ⟨hrest, hlength, hhigh⟩, rfl⟩
      exact ⟨.more (Nat.not_lt.mp hmore) hrest, Nat.succ_le_succ hlength,
        (hbound high hrest hlength).mpr hhigh⟩

/-- The last group fits if it has four bits in the fifth place. -/
theorem lt_of_last_group {more shift group : Nat} (hshift : shift + 7 * (more + 1) = 35)
    (hlast : group < 0x80) : group < 2 ^ (32 - shift) ↔ ¬ (shift = 28 ∧ 0x10 ≤ group % 0x80) := by
  have hlow : group % 0x80 = group := Nat.mod_eq_of_lt hlast
  rw [hlow]
  by_cases hfifth : shift = 28
  · subst hfifth
    omega
  · have hpow : 2 ^ 7 ≤ 2 ^ (32 - shift) := Nat.pow_le_pow_right (by decide) (by omega)
    omega

/-- Groups are read from the place `shift` on and added to what the groups before them write. -/
theorem recognizes_groups {more shift : Nat} (hshift : shift + 7 * more = 35) (value : Nat) :
    Recognizes (groups more shift value) .record fun bytes result =>
      ∃ n, SpellsGroupsFrom more shift bytes n ∧ result = value + n <<< shift := by
  induction more generalizing shift value with
  | zero =>
    -- a sixth group is never accepted
    have hnever : ∀ cursor result, groups 0 shift value cursor ≠ .ok result := by
      intro cursor result hread
      rw [groups, Recognizes.run_bind] at hread
      cases htake : take .record 1 cursor with
      | error fault => rw [htake] at hread; cases hread
      | ok answer => rw [htake] at hread; cases hread
    refine (Recognizes.nothing .record hnever).congr fun bytes result => iff_false_intro ?_
    rintro ⟨n, hgroups, -⟩
    exact not_spellsGroupsFrom_zero hgroups
  | succ more ih =>
    rw [groups]
    refine Recognizes.congr (@Recognizes.bind _ _ _ .record _ _
      (fun group rest result => ∃ n, SpellsGroupsFrom (more + 1) shift (UInt8.ofNat group :: rest) n ∧
        result = value + n <<< shift) (recognizes_byte .record) ?_) fun bytes result => ?_
    · rintro _ _ ⟨byte, rfl, rfl⟩
      simp only [UInt8.ofNat_toNat, spellsGroupsFrom_cons_iff hshift]
      split
      · next hfifth =>
        refine (Recognizes.nothing .record fun cursor result h => by cases h).congr
          fun rest result => iff_false_intro ?_
        rintro ⟨n, hgroups, -⟩
        split at hgroups
        · next hlast => exact (lt_of_last_group hshift hlast).mp hgroups.2.1 hfifth
        · obtain ⟨high, hhigh, -⟩ := hgroups
          obtain rfl : more = 0 := by omega
          exact not_spellsGroupsFrom_zero hhigh
      · next hfits =>
        split
        · next hlast =>
          refine (Recognizes.pure .record _).congr fun rest result => ?_
          have hlow : byte.toNat % 0x80 = byte.toNat := Nat.mod_eq_of_lt hlast
          simp [(lt_of_last_group hshift hlast).mpr hfits, hlow]
        · next hmore =>
          refine (ih (by omega) _).congr fun rest result => ?_
          have hvalue (high : Nat) : value + (byte.toNat % 0x80 + 0x80 * high) <<< shift =
              value + (byte.toNat % 0x80) <<< shift + high <<< (shift + 7) := by
            simp only [Nat.shiftLeft_eq, Nat.pow_add]
            ring
          constructor
          · rintro ⟨_, ⟨high, hhigh, rfl⟩, rfl⟩
            exact ⟨high, hhigh, hvalue high⟩
          · rintro ⟨high, hhigh, rfl⟩
            exact ⟨_, ⟨high, hhigh, rfl⟩, (hvalue high).symm⟩
    · constructor
      · rintro ⟨n, hgroups, rfl⟩
        obtain ⟨byte, rest, rfl⟩ := List.exists_cons_of_ne_nil hgroups.1.ne_nil
        exact ⟨[byte], byte.toNat, rest, rfl, ⟨byte, rfl, rfl⟩, n, by simpa using hgroups, rfl⟩
      · rintro ⟨_, _, rest, rfl, ⟨byte, rfl, rfl⟩, n, hgroups, rfl⟩
        exact ⟨n, by simpa using hgroups, rfl⟩

theorem recognizes_count : Recognizes (groups 5 0 0) .record SpellsCount := by
  refine (recognizes_groups rfl 0).congr fun bytes count => ?_
  simp [SpellsGroupsFrom, SpellsCount]

/-- A bit of a byte string is a bit of the byte that it falls into. -/
theorem getElem?_bits (count : Nat) (bytes : Bytes) (i : Nat) :
    (bits count bytes)[i]? =
      if i < count then bytes[i / 8]?.map (·.toNat.testBit (i % 8)) else none := by
  rw [bits, List.getElem?_take]
  split
  · clear * -
    induction bytes generalizing i with
    | nil => simp
    | cons b rest ih =>
      rw [List.flatMap_cons]
      by_cases hfirst : i < 8
      · have hdiv : i / 8 = 0 := Nat.div_eq_of_lt hfirst
        rw [List.getElem?_append_left (by simpa using hfirst), hdiv, Nat.mod_eq_of_lt hfirst]
        simp [hfirst]
      · have hi : i = i - 8 + 8 := by omega
        have hdiv : i / 8 = (i - 8) / 8 + 1 := by omega
        have hmod : i % 8 = (i - 8) % 8 := by omega
        rw [List.getElem?_append_right (by simpa using hfirst), hdiv, hmod, List.getElem?_cons_succ,
          ← ih]
        simp
  · rfl

theorem bits_eq_iff {count : Nat} {bytes : Bytes} (hlength : bytes.length = (count + 7) / 8)
    {probes : List Bool} :
    probes = bits count bytes ↔ probes.length = count ∧ SpellsProbes bytes probes := by
  have hbits : (bits count bytes).length = count := by
    rw [bits, List.length_take, List.length_flatMap]
    simp
    omega
  constructor
  · rintro rfl
    refine ⟨hbits, by rw [hbits, hlength], fun i hi => ?_⟩
    rw [hbits] at hi
    rw [getElem?_bits, if_pos hi]
  · rintro ⟨rfl, -, hprobes⟩
    refine List.ext_getElem? fun i => ?_
    rw [getElem?_bits]
    split
    · next hi => exact hprobes i hi
    · next hi => exact List.getElem?_eq_none (Nat.not_lt.mp hi)

theorem recognizes_probes :
    Recognizes probes .record fun bytes probes =>
      ∃ count rest, bytes = count ++ rest ∧ SpellsCount count probes.length ∧
        SpellsProbes rest probes := by
  refine (recognizes_count.bind fun {_ count} _ => (recognizes_take .record _).bind
    fun _ => Recognizes.pure .record _).congr fun bytes probes => ?_
  constructor
  · rintro ⟨count, rest, rfl, hcount, hprobes⟩
    exact ⟨count, _, rest, rfl, hcount, rest, rest, [], (List.append_nil _).symm,
      ⟨rfl, hprobes.1⟩, rfl, (bits_eq_iff hprobes.1).mpr ⟨rfl, hprobes⟩⟩
  · rintro ⟨count, n, _, rfl, hcount, rest, _, _, rfl, ⟨rfl, hlength⟩, rfl, hbits⟩
    obtain ⟨rfl, hprobes⟩ := (bits_eq_iff hlength).mp hbits
    exact ⟨count, rest, by rw [List.append_nil], hcount, hprobes⟩

/-! ## Blocks -/

theorem recognizes_header :
    Recognizes readHeader .header fun bytes block => Spells (0x01 :: bytes) block := by
  have hfailing (fault : Fault) (next : Reader Block) (cursor : Cursor) (result : Block × Cursor) :
      ((throw fault : Reader Unit) >>= fun _ => next) cursor ≠ .ok result := by
    intro h
    cases h
  unfold readHeader
  refine ((recognizes_number .header 2).bind fun _ => Recognizes.guarded (hfailing _ _) fun _ =>
    (recognizes_number .header 2).bind fun _ => Recognizes.guarded (hfailing _ _) fun _ =>
      Recognizes.pure .header Block.header).congr fun bytes block => ?_
  constructor
  · intro hspells
    cases hspells
    refine ⟨[0xC0, 0xC0], magic, [0x10, 0x07], rfl, ⟨rfl, by decide⟩, by simp, ?_⟩
    exact ⟨[0x10, 0x07], version, [], rfl, ⟨rfl, by decide⟩, by simp, rfl, rfl⟩
  · rintro ⟨_, _, _, rfl, ⟨rfl, -⟩, hmagic, _, _, _, rfl, ⟨rfl, -⟩, hversion, rfl, rfl⟩
    rw [not_not.mp hmagic, not_not.mp hversion]
    exact .header

theorem toNat_ofNat_of_lt {n : Nat} (h : n < 256 ^ 8) : (UInt64.ofNat n).toNat = n := by
  rw [UInt64.toNat_ofNat']
  exact Nat.mod_eq_of_lt h

theorem recognizes_session :
    Recognizes readSession .session fun bytes block => Spells (0x10 :: bytes) block := by
  unfold readSession
  refine ((recognizes_text .session).bind fun {_ id} _ =>
    (recognizes_number .session 8).bind fun {_ start} _ =>
      (recognizes_number .session 8).bind fun {_ dump} _ =>
        Recognizes.pure .session (Block.session ⟨id, (UInt64.ofNat start).toInt64,
          (UInt64.ofNat dump).toInt64⟩)).congr fun bytes block => ?_
  constructor
  · intro hspells
    cases hspells with
    | session hid =>
      refine ⟨_, _, _, rfl, hid, _, _, _, rfl, ⟨rfl, UInt64.toNat_lt _⟩, _, _, [],
        (List.append_nil _).symm, ⟨rfl, UInt64.toNat_lt _⟩, rfl, ?_⟩
      simp only [UInt64.ofNat_toNat]
      rfl
  · rintro ⟨id, _, _, rfl, hid, _, start, _, rfl, ⟨rfl, hstart⟩, _, dump, _, rfl,
      ⟨rfl, hdump⟩, rfl, rfl⟩
    rw [List.append_nil]
    have hspells := @Spells.session id ⟨_, (UInt64.ofNat start).toInt64,
      (UInt64.ofNat dump).toInt64⟩ hid
    simpa [toNat_ofNat_of_lt hstart, toNat_ofNat_of_lt hdump] using hspells

theorem recognizes_record :
    Recognizes readRecord .record fun bytes block => Spells (0x11 :: bytes) block := by
  unfold readRecord
  refine ((recognizes_number .record 8).bind fun {_ id} _ =>
    (recognizes_text .record).bind fun {_ name} _ =>
      recognizes_probes.bind fun {_ probes} _ =>
        Recognizes.pure .record (Block.record ⟨⟨UInt64.ofNat id⟩, ⟨name, probes⟩⟩)).congr
          fun bytes block => ?_
  constructor
  · intro hspells
    cases hspells with
    | record hname hcount hprobes =>
      refine ⟨_, _, _, rfl, ⟨rfl, UInt64.toNat_lt _⟩, _, _, _, rfl, hname, _, _, [],
        (List.append_nil _).symm, ⟨_, _, rfl, hcount, hprobes⟩, rfl, ?_⟩
      simp only [UInt64.ofNat_toNat]
  · rintro ⟨_, id, _, rfl, ⟨rfl, hid⟩, name, _, _, rfl, hname, _, _, _, rfl,
      ⟨count, probes, rfl, hcount, hprobes⟩, rfl, rfl⟩
    rw [List.append_nil]
    have hspells := @Spells.record name count probes ⟨⟨UInt64.ofNat id⟩, ⟨_, _⟩⟩ hname hcount hprobes
    simpa [toNat_ofNat_of_lt hid] using hspells

/-- The rest of a block is recognized by the reader of its kind. -/
theorem recognizes_readRest (kind : Kind) :
    Recognizes (readRest kind) kind fun bytes block => Spells (kind.byte :: bytes) block := by
  cases kind with
  | header => exact recognizes_header
  | session => exact recognizes_session
  | record => exact recognizes_record

theorem Kind.ofByte?_eq_some_iff {byte : UInt8} {kind : Kind} :
    Kind.ofByte? byte = some kind ↔ byte = kind.byte := by
  constructor
  · intro h
    unfold ofByte? at h
    split at h <;> cases h <;> rfl
  · rintro rfl
    cases kind <;> rfl

/-- A block begins with the byte of its kind. -/
theorem Spells.exists_kind {bytes : Bytes} {block : Block} (h : Spells bytes block) :
    ∃ kind : Kind, ∃ rest, bytes = kind.byte :: rest := by
  cases h with
  | header => exact ⟨.header, _, rfl⟩
  | session => exact ⟨.session, _, rfl⟩
  | record => exact ⟨.record, _, rfl⟩

theorem read_kind (kind : Kind) : read kind.byte = readRest kind := by
  funext cursor
  rw [read, Kind.ofByte?_eq_some_iff.mpr rfl]
  rfl

/-- The bytes that are taken spell the block. -/
theorem exists_spells_of_read {byte : UInt8} {cursor next : Cursor} {block : Block}
    (h : read byte cursor = .ok (block, next)) :
    ∃ bytes, Spells (byte :: bytes) block ∧ cursor.rest = bytes ++ next.rest := by
  cases hkind : Kind.ofByte? byte with
  | none =>
    rw [read, hkind] at h
    cases h
  | some kind =>
    obtain rfl := Kind.ofByte?_eq_some_iff.mp hkind
    rw [read_kind] at h
    exact (recognizes_readRest kind).sound h

/-- What is written for a block spells it. -/
theorem spells_write {block : Block} (h : block.Writable) : Spells block.write.bytes block := by
  obtain ⟨byte, bytes, hbytes, hreads⟩ := reads_write h
  obtain ⟨front, hspells, hrest⟩ := exists_spells_of_read (hreads 0 [])
  obtain rfl : bytes = front := by simpa using hrest
  exact hbytes ▸ hspells

/-- Bytes that spell a block are taken, whatever follows them. -/
theorem reads_of_spells {byte : UInt8} {bytes : Bytes} {block : Block}
    (h : Spells (byte :: bytes) block) : Reads (read byte) bytes block := by
  obtain ⟨kind, rest, hbytes⟩ := h.exists_kind
  obtain ⟨rfl, rfl⟩ := List.cons.inj hbytes
  rw [read_kind]
  exact (recognizes_readRest kind).complete h

/-- A block that ends too early is truncated. -/
theorem read_of_cut {kind : Kind} {bytes part : Bytes} {block : Block}
    (h : Spells (kind.byte :: bytes) block) (hpart : part <+: bytes) (hne : part ≠ bytes)
    (offset : Nat) : read kind.byte ⟨offset, part⟩ = .error (.truncated kind) := by
  rw [read_kind]
  exact (recognizes_readRest kind).cut h hpart hne offset

end Block

end TestCoverage

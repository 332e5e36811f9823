import TestCoverage.KeyOrder

/-!
# Ordered maps

An `OrderedMap κ α` is a list of pairs whose keys strictly increase. The list is determined
by what the map holds (`ext_find?`), so two maps that answer every look-up alike are equal.

* `find?_set`: writing at a key changes the answer at that key and at no other.
* `sorted`: the keys of the list strictly increase.
* `mem_entries_iff`: the entries of the list are what the look-ups find.
-/

namespace TestCoverage

universe u v

/-- A finite map, as the list of its entries by ascending keys. -/
structure OrderedMap (κ : Type u) (α : Type v) [LT κ] where
  entries : List (κ × α)
  sorted : entries.Pairwise fun a b => a.1 < b.1

namespace OrderedMap

/-- The list with the value at a key, which is put where it belongs. -/
def insertEntry {κ : Type u} {α : Type v} [LT κ] [DecidableLT κ] (key : κ) (value : α) :
    List (κ × α) → List (κ × α)
  | [] => [(key, value)]
  | entry :: rest =>
    if key < entry.1 then (key, value) :: entry :: rest
    else if entry.1 < key then entry :: insertEntry key value rest
    else (key, value) :: rest

def findEntry {κ : Type u} {α : Type v} [DecidableEq κ] (key : κ) : List (κ × α) → Option α
  | [] => none
  | entry :: rest => if entry.1 = key then some entry.2 else findEntry key rest

variable {κ : Type u} {α : Type v} [LT κ]

theorem mem_insertEntry [DecidableLT κ] {key : κ} {value : α} {entries : List (κ × α)}
    {e : κ × α} (h : e ∈ insertEntry key value entries) : e = (key, value) ∨ e ∈ entries := by
  induction entries with
  | nil => simpa [insertEntry] using h
  | cons entry rest ih =>
    rw [insertEntry] at h
    split at h
    · simpa using h
    · split at h
      · rcases List.mem_cons.mp h with rfl | h
        · simp
        · rcases ih h with rfl | h
          · simp
          · simp [h]
      · rcases List.mem_cons.mp h with rfl | h
        · simp
        · simp [h]

theorem pairwise_insertEntry [DecidableLT κ] [KeyOrder κ] {key : κ} {value : α}
    {entries : List (κ × α)} (h : entries.Pairwise fun a b => a.1 < b.1) :
    (insertEntry key value entries).Pairwise fun a b => a.1 < b.1 := by
  induction entries with
  | nil => simp [insertEntry]
  | cons entry rest ih =>
    obtain ⟨hhead, hrest⟩ := List.pairwise_cons.mp h
    rw [insertEntry]
    split
    · next hlt =>
      refine List.pairwise_cons.mpr ⟨?_, h⟩
      intro e he
      rcases List.mem_cons.mp he with rfl | he
      · exact hlt
      · exact KeyOrder.trans hlt (hhead e he)
    · next hge =>
      split
      · next hlt =>
        refine List.pairwise_cons.mpr ⟨?_, ih hrest⟩
        intro e he
        rcases mem_insertEntry he with rfl | he
        · exact hlt
        · exact hhead e he
      · next hge' =>
        have hkey : key = entry.1 := KeyOrder.eq_of_not_lt hge hge'
        refine List.pairwise_cons.mpr ⟨?_, hrest⟩
        intro e he
        simpa [hkey] using hhead e he

def empty : OrderedMap κ α := ⟨[], List.Pairwise.nil⟩

instance : Inhabited (OrderedMap κ α) := ⟨empty⟩

def find? [DecidableEq κ] (map : OrderedMap κ α) (key : κ) : Option α :=
  findEntry key map.entries

/-- The map with the value at a key, replacing the one that was there. -/
def set [DecidableLT κ] [KeyOrder κ] (map : OrderedMap κ α) (key : κ) (value : α) :
    OrderedMap κ α :=
  ⟨insertEntry key value map.entries, pairwise_insertEntry map.sorted⟩

def size (map : OrderedMap κ α) : Nat := map.entries.length

def isEmpty (map : OrderedMap κ α) : Bool := map.entries.isEmpty

def keys (map : OrderedMap κ α) : List κ := map.entries.map (·.1)

theorem findEntry_insertEntry [DecidableEq κ] [DecidableLT κ] [KeyOrder κ] (key other : κ)
    (value : α) (entries : List (κ × α)) :
    findEntry other (insertEntry key value entries) =
      if key = other then some value else findEntry other entries := by
  induction entries with
  | nil => simp [insertEntry, findEntry]
  | cons entry rest ih =>
    rw [insertEntry]
    split
    · rw [findEntry]
    · next hge =>
      split
      · next hlt =>
        rw [findEntry, ih, findEntry]
        by_cases hother : entry.1 = other
        · subst hother
          have hne : key ≠ entry.1 := fun h => KeyOrder.irrefl key (h ▸ hlt)
          simp [hne]
        · simp [hother]
      · next hge' =>
        have hkey : key = entry.1 := KeyOrder.eq_of_not_lt hge hge'
        subst hkey
        rw [findEntry, findEntry]
        split <;> rfl

/-- Writing at a key changes the answer at that key and at no other. -/
@[simp] theorem find?_set [DecidableEq κ] [DecidableLT κ] [KeyOrder κ]
    (map : OrderedMap κ α) (key other : κ) (value : α) :
    (map.set key value).find? other = if key = other then some value else map.find? other :=
  findEntry_insertEntry key other value map.entries

@[simp] theorem find?_empty [DecidableEq κ] (key : κ) :
    (empty : OrderedMap κ α).find? key = none := rfl

omit [LT κ] in
theorem mem_of_findEntry [DecidableEq κ] {key : κ} {value : α} {entries : List (κ × α)}
    (h : findEntry key entries = some value) : (key, value) ∈ entries := by
  induction entries with
  | nil => simp [findEntry] at h
  | cons entry rest ih =>
    rw [findEntry] at h
    split at h
    · next hkey =>
      obtain ⟨rfl⟩ := Option.some.inj h
      subst hkey
      exact List.mem_cons_self
    · exact List.mem_cons_of_mem entry (ih h)

theorem findEntry_of_mem [DecidableEq κ] [KeyOrder κ] {key : κ} {value : α}
    {entries : List (κ × α)} (hsorted : entries.Pairwise fun a b => a.1 < b.1)
    (h : (key, value) ∈ entries) : findEntry key entries = some value := by
  induction entries with
  | nil => cases h
  | cons entry rest ih =>
    obtain ⟨hhead, hrest⟩ := List.pairwise_cons.mp hsorted
    rw [findEntry]
    rcases List.mem_cons.mp h with rfl | h
    · exact if_pos rfl
    · have hlt : entry.1 < key := hhead (key, value) h
      have hne : entry.1 ≠ key := fun heq => KeyOrder.irrefl key (heq ▸ hlt)
      rw [if_neg hne, ih hrest h]

omit [LT κ] in
theorem findEntry_eq_none [DecidableEq κ] {key : κ} {entries : List (κ × α)}
    (h : ∀ entry ∈ entries, entry.1 ≠ key) : findEntry key entries = none := by
  induction entries with
  | nil => rfl
  | cons entry rest ih =>
    obtain ⟨hentry, hrest⟩ := List.forall_mem_cons.mp h
    rw [findEntry, if_neg hentry, ih hrest]

theorem insertEntry_of_forall_lt [DecidableLT κ] [KeyOrder κ] {key : κ} (value : α)
    {entries : List (κ × α)} (h : ∀ entry ∈ entries, entry.1 < key) :
    insertEntry key value entries = entries ++ [(key, value)] := by
  induction entries with
  | nil => rfl
  | cons entry rest ih =>
    obtain ⟨hentry, hrest⟩ := List.forall_mem_cons.mp h
    have hnot : ¬ key < entry.1 := fun hlt =>
      KeyOrder.irrefl key (KeyOrder.trans hlt hentry)
    rw [insertEntry, if_neg hnot, if_pos hentry, ih hrest, List.cons_append]

theorem mem_entries_iff [DecidableEq κ] [KeyOrder κ] (map : OrderedMap κ α) (key : κ)
    (value : α) : (key, value) ∈ map.entries ↔ map.find? key = some value :=
  ⟨findEntry_of_mem map.sorted, mem_of_findEntry⟩

theorem eq_of_mem_iff [KeyOrder κ] {first second : List (κ × α)}
    (hfirst : first.Pairwise fun a b => a.1 < b.1)
    (hsecond : second.Pairwise fun a b => a.1 < b.1)
    (h : ∀ entry, entry ∈ first ↔ entry ∈ second) : first = second := by
  induction first generalizing second with
  | nil =>
    cases second with
    | nil => rfl
    | cons entry rest => exact absurd ((h entry).mpr List.mem_cons_self) List.not_mem_nil
  | cons a rest ih =>
    cases second with
    | nil => exact absurd ((h a).mp List.mem_cons_self) List.not_mem_nil
    | cons b others =>
      obtain ⟨hahead, harest⟩ := List.pairwise_cons.mp hfirst
      obtain ⟨hbhead, hbrest⟩ := List.pairwise_cons.mp hsecond
      -- each head is in the other list, so neither comes before the other
      have hab : a = b := by
        rcases List.mem_cons.mp ((h a).mp List.mem_cons_self) with heq | ha
        · exact heq
        · rcases List.mem_cons.mp ((h b).mpr List.mem_cons_self) with heq | hb
          · exact heq.symm
          · exact absurd (KeyOrder.trans (hahead b hb) (hbhead a ha)) (KeyOrder.irrefl _)
      subst hab
      refine congrArg (a :: ·) (ih harest hbrest fun entry => ?_)
      constructor
      · intro hentry
        rcases List.mem_cons.mp ((h entry).mp (List.mem_cons_of_mem a hentry)) with rfl | hmem
        · exact absurd (hahead _ hentry) (KeyOrder.irrefl _)
        · exact hmem
      · intro hentry
        rcases List.mem_cons.mp ((h entry).mpr (List.mem_cons_of_mem a hentry)) with rfl | hmem
        · exact absurd (hbhead _ hentry) (KeyOrder.irrefl _)
        · exact hmem

theorem ext_entries {first second : OrderedMap κ α} (h : first.entries = second.entries) :
    first = second := by
  cases first
  cases second
  cases h
  rfl

/-- Two maps that answer every look-up alike are equal. -/
theorem ext_find? [DecidableEq κ] [KeyOrder κ] {first second : OrderedMap κ α}
    (h : ∀ key, first.find? key = second.find? key) : first = second := by
  refine ext_entries (eq_of_mem_iff first.sorted second.sorted fun (key, value) => ?_)
  rw [mem_entries_iff, mem_entries_iff, h key]

end OrderedMap

end TestCoverage

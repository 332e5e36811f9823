import Mathlib
import TestCoverage.Files.Path

/-!
# Writing files

What is put at a place stands there, everything on the way to it is a directory, and nothing else
changes (`FileTree.find?_put`, `FileTree.find?_put_above`, `FileTree.find?_put_apart`). Where a
path leads is told by `FileTree.Leads`. A path to a file, or to a place for one, comes there with
its last name only and goes through directories and links before. These stay what they are when a
file is put there, so the path leads to the same place afterwards (`FileTree.Leads.put`).

* `FileTree.read_of_write`: what is written to a path is read from it.
-/

namespace TestCoverage.FileTree

/-! ## Places -/

theorem find?_append (tree : FileTree) (above below : Place) :
    tree.find? (above ++ below) = (tree.find? above).bind (·.find? below) := by
  induction above generalizing tree with
  | nil => rfl
  | cons name above ih =>
    rw [List.cons_append, find?, find?]
    cases tree.entries.lookup name with
    | none => rfl
    | some next => exact ih next

/-- Only directories have something below them. -/
theorem directory_of_find?_append {tree found : FileTree} {above : Place} {name : Bytes}
    {below : Place} (h : tree.find? (above ++ name :: below) = some found) :
    ∃ entries, tree.find? above = some (.directory entries) := by
  rw [find?_append] at h
  obtain ⟨next, hnext, hfound⟩ := Option.bind_eq_some_iff.mp h
  cases next with
  | directory entries => exact ⟨entries, hnext⟩
  | file bytes => cases hfound
  | link target => cases hfound

theorem lookup_filter_ne {α : Type} (name other : Bytes) (entries : List (Bytes × α)) :
    (entries.filter (·.1 != name)).lookup other =
      if other = name then none else entries.lookup other := by
  induction entries with
  | nil => exact (ite_self none).symm
  | cons entry entries ih =>
    obtain ⟨first, value⟩ := entry
    by_cases hfirst : first = name
    · have hdropped : ¬(first != name) = true := by simp [hfirst]
      rw [List.filter_cons, if_neg hdropped, ih]
      by_cases hother : other = name
      · rw [if_pos hother, if_pos hother]
      · have hne : other ≠ first := fun h => hother (h.trans hfirst)
        rw [if_neg hother, if_neg hother, List.lookup_cons, beq_false_of_ne hne]
    · have hkept : (first != name) = true := bne_iff_ne.mpr hfirst
      rw [List.filter_cons, if_pos hkept, List.lookup_cons, List.lookup_cons, ih]
      by_cases hother : other = first
      · have hne : other ≠ name := fun h => hfirst (hother.symm.trans h)
        rw [if_neg hne, if_neg hne]
      · rw [beq_false_of_ne hother]

theorem lookup_entries_put (tree new : FileTree) (name other : Bytes) (rest : Place) :
    (tree.put (name :: rest) new).entries.lookup other =
      if other = name then some (((tree.entries.lookup name).getD empty).put rest new)
      else tree.entries.lookup other := by
  rw [put, entries, List.lookup_append, lookup_filter_ne, List.lookup_cons]
  by_cases hother : other = name
  · rw [if_pos hother, if_pos hother, beq_iff_eq.mpr hother]
    rfl
  · rw [if_neg hother, if_neg hother, beq_false_of_ne hother]
    exact Option.or_none

theorem find?_put (tree new : FileTree) (place : Place) :
    (tree.put place new).find? place = some new := by
  induction place generalizing tree with
  | nil => rfl
  | cons name rest ih =>
    rw [find?, lookup_entries_put, if_pos rfl]
    exact ih _

theorem find?_put_above (tree new : FileTree) (above : Place) (name : Bytes) (below : Place) :
    ∃ entries, (tree.put (above ++ name :: below) new).find? above = some (.directory entries) :=
  directory_of_find?_append (find?_put tree new (above ++ name :: below))

theorem find?_put_apart {tree new : FileTree} {place other : Place} (h : ¬place <+: other)
    (h' : ¬other <+: place) : (tree.put place new).find? other = tree.find? other := by
  induction place generalizing tree other with
  | nil => exact absurd List.nil_prefix h
  | cons name rest ih =>
    cases other with
    | nil => exact absurd List.nil_prefix h'
    | cons first others =>
      rw [find?, find?, lookup_entries_put]
      by_cases hfirst : first = name
      · subst hfirst
        rw [List.prefix_cons_inj] at h h'
        rw [if_pos rfl]
        dsimp only
        rw [ih h h']
        cases hbelow : tree.entries.lookup first with
        | some below => rfl
        | none =>
          cases others with
          | nil => exact absurd List.nil_prefix h'
          | cons => rfl
      · rw [if_neg hfirst]

/-! ## Paths -/

/-- The name calls for something in a directory. -/
def Calls (name : Bytes) : Prop :=
  ¬(name = [] ∨ name = here) ∧ name ≠ parent ∧ isGoodName name = true

/-- Some names lead from a directory to a place, with so many of the allowed links left. -/
inductive Leads (tree : FileTree) : Nat → Place → List Bytes → Place → Nat → Prop where
  | arrived (links : Nat) (place : Place) : Leads tree links place [] place links
  | stay {links left : Nat} {place target : Place} {name : Bytes} {rest : List Bytes}
      (hname : name = [] ∨ name = here) (hrest : Leads tree links place rest target left) :
      Leads tree links place (name :: rest) target left
  | up {links left : Nat} {place target : Place} {rest : List Bytes} (hplace : place ≠ [])
      (hrest : Leads tree links place.dropLast rest target left) :
      Leads tree links place (parent :: rest) target left
  /-- Nothing or a file is called for, with the last name. -/
  | last {links : Nat} {place : Place} {name : Bytes} (hname : Calls name)
      (hfound : ∀ found ∈ tree.find? (place ++ [name]), ∃ bytes, found = .file bytes) :
      Leads tree links place [name] (place ++ [name]) links
  | down {links left : Nat} {place target : Place} {name : Bytes} {rest : List Bytes}
      {entries : List (Bytes × FileTree)} (hname : Calls name)
      (hfound : tree.find? (place ++ [name]) = some (.directory entries))
      (hrest : Leads tree links (place ++ [name]) rest target left) :
      Leads tree links place (name :: rest) target left
  | through {links left : Nat} {place target : Place} {name address : Bytes}
      {rest : List Bytes} (hname : Calls name)
      (hfound : tree.find? (place ++ [name]) = some (.link address))
      (haddress : ¬(address = [] ∨ isAbsolute address))
      (hrest : Leads tree links place (names address ++ rest) target left) :
      Leads tree (links + 1) place (name :: rest) target left

variable {tree : FileTree} {links left : Nat} {place target : Place} {path : List Bytes}

theorem Leads.follow_eq (h : Leads tree links place path target left) :
    tree.follow links place path = .ok (target, left) := by
  induction h with
  | arrived links place => rw [follow]
  | stay hname hrest ih => rw [follow, if_pos hname, ih]
  | up hplace hrest ih =>
    rw [follow, if_neg (by decide), if_pos rfl, if_neg hplace, ih]
  | last hname hfound =>
    obtain ⟨hhere, hparent, hgood⟩ := hname
    rw [follow, if_neg hhere, if_neg hparent, if_neg (by simp [hgood])]
    split
    · rfl
    · next hdirectory =>
      obtain ⟨bytes, hfile⟩ := hfound _ hdirectory
      cases hfile
    · rfl
    · next hlink =>
      obtain ⟨bytes, hfile⟩ := hfound _ hlink
      cases hfile
  | down hname hfound hrest ih =>
    obtain ⟨hhere, hparent, hgood⟩ := hname
    rw [follow, if_neg hhere, if_neg hparent, if_neg (by simp [hgood]), hfound]
    exact ih
  | through hname hfound haddress hrest ih =>
    obtain ⟨hhere, hparent, hgood⟩ := hname
    rw [follow, if_neg hhere, if_neg hparent, if_neg (by simp [hgood]), hfound]
    dsimp only
    rw [if_neg haddress, ih]

theorem leads_of_follow (h : tree.follow links place path = .ok (target, left)) :
    Leads tree links place path target left := by
  fun_induction follow tree links place path with
  | case1 links place =>
    obtain ⟨rfl, rfl⟩ := Prod.mk.inj (Except.ok.inj h)
    exact .arrived links place
  | case2 links place name rest hname ih => exact .stay hname (ih h)
  | case3 => cases h
  | case4 links place rest hplace _ ih => exact .up hplace (ih h)
  | case5 => cases h
  | case6 links place name hhere hparent hgood hnothing =>
    obtain ⟨rfl, rfl⟩ := Prod.mk.inj (Except.ok.inj h)
    refine .last ⟨hhere, hparent, by simpa using hgood⟩ ?_
    intro found hfound
    rw [hnothing] at hfound
    cases hfound
  | case7 => cases h
  | case8 links place name rest hhere hparent hgood entries hdirectory ih =>
    exact .down ⟨hhere, hparent, by simpa using hgood⟩ hdirectory (ih h)
  | case9 links place name hhere hparent hgood bytes hfile =>
    obtain ⟨rfl, rfl⟩ := Prod.mk.inj (Except.ok.inj h)
    refine .last ⟨hhere, hparent, by simpa using hgood⟩ ?_
    intro found hfound
    rw [hfile] at hfound
    exact ⟨bytes, (Option.some.inj hfound).symm⟩
  | case10 => cases h
  | case11 => cases h
  | case12 => cases h
  | case13 place name rest hhere hparent hgood address hlink links haddress ih =>
    exact .through ⟨hhere, hparent, by simpa using hgood⟩ hlink haddress (ih h)

/-! ## Writing -/

/-- A file can be put there: nothing or a file stands there, in a directory. -/
structure Free (tree : FileTree) (target : Place) : Prop where
  found : ∀ found ∈ tree.find? target, ∃ bytes, found = .file bytes
  above : target ≠ [] → ∃ entries, tree.find? target.dropLast = some (.directory entries)

theorem Free.not_prefix {found : FileTree} (h : Free tree target)
    (hfound : tree.find? place = some found) (hfile : ∀ bytes, found ≠ .file bytes) :
    ¬target <+: place := by
  rintro ⟨below, rfl⟩
  cases below with
  | nil =>
    rw [List.append_nil] at hfound
    obtain ⟨bytes, hbytes⟩ := h.found found hfound
    exact hfile bytes hbytes
  | cons name below =>
    obtain ⟨entries, hentries⟩ := directory_of_find?_append hfound
    obtain ⟨bytes, hbytes⟩ := h.found _ hentries
    cases hbytes

theorem Free.find?_put_link {address : Bytes} (h : Free tree target)
    (hlink : tree.find? place = some (.link address)) (bytes : Bytes) :
    (tree.put target (.file bytes)).find? place = some (.link address) := by
  have hbelow := h.not_prefix hlink (by simp)
  have habove : ¬place <+: target := by
    rintro ⟨_ | ⟨name, below⟩, rfl⟩
    · rw [List.append_nil] at hbelow
      exact hbelow List.prefix_rfl
    · obtain ⟨entries, hentries⟩ := h.above (by simp)
      rw [List.dropLast_append_of_ne_nil (List.cons_ne_nil name below), find?_append,
        hlink] at hentries
      generalize (name :: below).dropLast = rest at hentries
      cases rest <;> cases hentries
  rw [find?_put_apart hbelow habove, hlink]

theorem Free.find?_put_directory {entries : List (Bytes × FileTree)} (h : Free tree target)
    (hdirectory : tree.find? place = some (.directory entries)) (bytes : Bytes) :
    ∃ entries, (tree.put target (.file bytes)).find? place = some (.directory entries) := by
  have hbelow := h.not_prefix hdirectory (by simp)
  by_cases habove : place <+: target
  · obtain ⟨_ | ⟨name, below⟩, rfl⟩ := habove
    · rw [List.append_nil] at hbelow
      exact absurd List.prefix_rfl hbelow
    · exact find?_put_above tree _ place name below
  · exact ⟨entries, (find?_put_apart hbelow habove).trans hdirectory⟩

/-- A path does not end at a link, and what it leads to is in a directory. -/
theorem Leads.free (h : Leads tree links place path target left)
    (hplace : ∃ entries, tree.find? place = some (.directory entries))
    (htarget : ∀ entries, tree.find? target ≠ some (.directory entries)) : Free tree target := by
  induction h with
  | arrived links place =>
    obtain ⟨entries, hentries⟩ := hplace
    exact absurd hentries (htarget entries)
  | stay hname hrest ih => exact ih hplace htarget
  | up hne hrest ih =>
    obtain ⟨entries, hentries⟩ := hplace
    rw [← List.dropLast_append_getLast hne] at hentries
    exact ih (directory_of_find?_append hentries) htarget
  | last hname hfound =>
    refine ⟨hfound, fun _ => ?_⟩
    rwa [List.dropLast_concat]
  | down hname hfound hrest ih => exact ih ⟨_, hfound⟩ htarget
  | through hname hfound haddress hrest ih => exact ih hplace htarget

/-- A path leads to the same place when a file is put there. -/
theorem Leads.put (h : Leads tree links place path target left) (hfree : Free tree target)
    (bytes : Bytes) : Leads (tree.put target (.file bytes)) links place path target left := by
  induction h with
  | arrived links place => exact .arrived links place
  | stay hname hrest ih => exact .stay hname (ih hfree)
  | up hne hrest ih => exact .up hne (ih hfree)
  | last hname hfound =>
    refine .last hname ?_
    rw [find?_put]
    intro found hput
    exact ⟨bytes, (Option.some.inj hput).symm⟩
  | down hname hfound hrest ih =>
    obtain ⟨entries, hentries⟩ := hfree.find?_put_directory hfound bytes
    exact .down hname hentries (ih hfree)
  | through hname hfound haddress hrest ih =>
    exact .through hname (hfree.find?_put_link hfound bytes) haddress (ih hfree)

theorem locate_eq_ok_iff {path : Bytes} :
    tree.locate path = .ok (target, left) ↔
      isBadPath path = false ∧ ¬(path = [] ∨ isAbsolute path) ∧
        Leads tree linkAllowance [] (names path) target left := by
  unfold locate
  split
  · next hbad => simp [hbad]
  · next hbad =>
    split
    · next hopen => simp [hopen]
    · next hopen =>
      have hgood : isBadPath path = false := by simpa using hbad
      exact ⟨fun h => ⟨hgood, hopen, leads_of_follow h⟩, fun h => h.2.2.follow_eq⟩

theorem read_of_locate {path bytes : Bytes} (h : tree.locate path = .ok (target, left))
    (hfound : tree.find? target = some (.file bytes)) : tree.read path = .ok bytes := by
  have hresolve : tree.resolve path = .ok (.file bytes) := by
    simp only [resolve, h, bind, Except.bind, hfound]
  rw [read, hresolve]
  rfl

theorem exists_put_of_write {path bytes : Bytes} {after : FileTree}
    (h : tree.write path bytes = .ok after) :
    ∃ target left, tree.locate path = .ok (target, left) ∧
      (∀ entries, tree.find? target ≠ some (.directory entries)) ∧
        after = tree.put target (.file bytes) := by
  unfold write at h
  cases hlocate : tree.locate path with
  | error fault =>
    rw [hlocate] at h
    cases h
  | ok reached =>
    obtain ⟨target, left⟩ := reached
    rw [hlocate] at h
    change tree.putFile target bytes = .ok after at h
    unfold putFile at h
    split at h
    · cases h
    · next htarget =>
      refine ⟨target, left, rfl, ?_, (Except.ok.inj h).symm⟩
      intro entries hentries
      rw [hentries] at htarget
      exact htarget rfl

/-- What is written to a path is read from it. -/
theorem read_of_write {path bytes : Bytes} {after : FileTree} (htree : tree.isDirectory = true)
    (h : tree.write path bytes = .ok after) : after.read path = .ok bytes := by
  obtain ⟨target, left, hlocate, htarget, rfl⟩ := exists_put_of_write h
  obtain ⟨hgood, hopen, hleads⟩ := locate_eq_ok_iff.mp hlocate
  have hplace : ∃ entries, tree.find? [] = some (.directory entries) := by
    cases tree with
    | directory entries => exact ⟨entries, rfl⟩
    | file => cases htree
    | link => cases htree
  have hagain := hleads.put (hleads.free hplace htarget) bytes
  exact read_of_locate (locate_eq_ok_iff.mpr ⟨hgood, hopen, hagain⟩) (find?_put ..)

end TestCoverage.FileTree

import Mathlib
import TestCoverage.Proofs.Probe.Store

/-!
# What merging does and what it refuses

`ProbeStore.Merges` says class version by class version what a merge of two stores leaves and
which faults it notes. The faults are those of the records taken by themselves
(`ProbeStore.faults_merge`): what was merged before a record has another class version and
makes no difference.

* `ProbeStore.merges_merge`: a merge merges.
* `ProbeStore.merge_again`: the second merge of the same store changes nothing.
* `ProbeStore.merge_comm`, `ProbeStore.merge_assoc`: coherent stores merge in any order and
  grouping.
-/

namespace TestCoverage

/-- The class version that the fault is about. -/
def MergeFault.id : MergeFault → ClassId
  | .className id _ _ => id
  | .probeCount id _ _ _ => id

namespace Hits

/-- The fault of two records of one class version that do not agree. Numbers of probes are only
compared between records of one name. -/
inductive Conflict (id : ClassId) (hits incoming : Hits) : MergeFault → Prop where
  | className (hname : hits.className ≠ incoming.className) :
      Conflict id hits incoming (.className id hits.className incoming.className)
  | probeCount (hname : hits.className = incoming.className)
      (hcount : hits.probes.length ≠ incoming.probes.length) :
      Conflict id hits incoming
        (.probeCount id hits.className hits.probes.length incoming.probes.length)

variable {id : ClassId} {hits incoming : Hits} {fault : MergeFault}

theorem Conflict.not_agrees (h : hits.Conflict id incoming fault) : ¬ hits.Agrees incoming := by
  intro hagrees
  cases h with
  | className hname => exact hname hagrees.1
  | probeCount _ hcount => exact hcount hagrees.2

theorem Conflict.id_eq (h : hits.Conflict id incoming fault) : fault.id = id := by
  cases h <;> rfl

theorem merge_eq_error_iff :
    hits.merge id incoming = .error fault ↔ hits.Conflict id incoming fault := by
  constructor
  · intro h
    unfold merge at h
    split at h
    · next hname =>
      cases h
      exact .className hname
    · next hname =>
      split at h
      · next hcount =>
        cases h
        exact .probeCount (not_not.mp hname) hcount
      · cases h
  · intro h
    cases h with
    | className hname => rw [merge, if_pos hname]
    | probeCount hname hcount => rw [merge, if_neg (not_not.mpr hname), if_pos hcount]

/-- A record that covers the other one is not changed by it. -/
theorem join_of_covers (h : hits.Covers incoming) :
    join (some hits) (some incoming) = some hits := by
  have hagrees := h.1.symm
  have hsame : hits.union incoming = hits := by
    refine (ext_hit (agrees_union hagrees) fun probe => ?_).symm
    rw [hit_union_iff hagrees, or_iff_left_of_imp (h.2 probe)]
  rw [join, if_pos hagrees, hsame]

theorem join_join_self (first second : Option Hits) :
    join (join first second) second = join first second := by
  cases second with
  | none => exact join_none _
  | some incoming =>
    cases first with
    | none => exact join_of_covers (Covers.refl incoming)
    | some hits =>
      rw [join]
      split
      · next hagrees => exact join_of_covers (union_covers_right hagrees)
      · next hagrees => rw [join, if_neg hagrees]

end Hits

namespace ProbeStore

/-! ## Faults -/

/-- The fault that a record is refused with, unless the store takes it. -/
def fault? (store : ProbeStore) (record : ProbeRecord) : Option MergeFault :=
  match store.put record with
  | .ok _ => none
  | .error fault => some fault

theorem put_eq_error_iff {store : ProbeStore} {record : ProbeRecord} {fault : MergeFault} :
    store.put record = .error fault ↔
      ∃ existing, store.find? record.id = some existing ∧
        existing.Conflict record.id record.hits fault := by
  unfold put
  cases hfound : store.find? record.id with
  | none => simp
  | some existing =>
    simp only [Option.some_inj, exists_eq_left', ← Hits.merge_eq_error_iff]
    cases existing.merge record.id record.hits <;> simp [Except.map]

theorem fault?_eq_some_iff {store : ProbeStore} {record : ProbeRecord} {fault : MergeFault} :
    store.fault? record = some fault ↔
      ∃ existing, store.find? record.id = some existing ∧
        existing.Conflict record.id record.hits fault := by
  rw [← put_eq_error_iff, fault?]
  cases store.put record <;> simp

/-- It only matters what the store has for the class version of the record. -/
theorem fault?_congr {store other : ProbeStore} {record : ProbeRecord}
    (h : store.find? record.id = other.find? record.id) :
    store.fault? record = other.fault? record := by
  ext fault
  rw [fault?_eq_some_iff, fault?_eq_some_iff, h]

theorem fault?_eq_none_iff {store : ProbeStore} {record : ProbeRecord} :
    store.fault? record = none ↔
      ∀ existing, store.find? record.id = some existing → existing.Agrees record.hits := by
  rw [fault?]
  constructor
  · intro h
    cases hput : store.put record with
    | ok next => exact (put_eq_ok_iff.mp hput).agrees
    | error fault =>
      rw [hput] at h
      cases h
  · intro h
    obtain ⟨next, hput, -⟩ := exists_put h
    rw [hput]

theorem offer_snd (state : ProbeStore × List MergeFault) (record : ProbeRecord) :
    (offer state record).2 = state.2 ++ (state.1.fault? record).toList := by
  unfold offer fault?
  cases state.1.put record <;> simp

theorem faults_foldl_offer {records : List ProbeRecord}
    (hsorted : records.Pairwise fun a b => a.id < b.id) (state : ProbeStore × List MergeFault) :
    (records.foldl offer state).2 = state.2 ++ records.filterMap state.1.fault? := by
  induction records generalizing state with
  | nil => simp
  | cons record rest ih =>
    obtain ⟨hhead, hrest⟩ := List.pairwise_cons.mp hsorted
    -- the record has another class version than those that come after it
    have hsame : rest.filterMap (offer state record).1.fault? =
        rest.filterMap state.1.fault? := by
      refine List.filterMap_congr fun other hother => fault?_congr ?_
      rw [find?_offer, if_neg]
      intro hid
      exact KeyOrder.irrefl record.id (by simpa [hid] using hhead other hother)
    rw [List.foldl_cons, ih hrest, offer_snd, hsame, List.append_assoc, List.filterMap_cons]
    cases state.1.fault? record <;> rfl

theorem pairwise_records (store : ProbeStore) :
    store.records.Pairwise fun a b => a.id < b.id :=
  List.pairwise_map.mpr store.byId.sorted

/-- The faults of a merge, by ascending class versions. -/
theorem faults_merge (store other : ProbeStore) :
    (store.merge other).2 = other.records.filterMap store.fault? :=
  faults_foldl_offer (pairwise_records other) (store, [])

theorem mem_faults_merge_iff {store other : ProbeStore} {fault : MergeFault} :
    fault ∈ (store.merge other).2 ↔
      ∃ hits incoming, store.find? fault.id = some hits ∧ other.find? fault.id = some incoming ∧
        hits.Conflict fault.id incoming fault := by
  rw [faults_merge, List.mem_filterMap]
  constructor
  · rintro ⟨record, hrecord, hfault⟩
    obtain ⟨hits, hfound, hconflict⟩ := fault?_eq_some_iff.mp hfault
    rw [mem_records_iff] at hrecord
    rw [hconflict.id_eq]
    exact ⟨hits, record.hits, hfound, hrecord, hconflict⟩
  · rintro ⟨hits, incoming, hfound, hincoming, hconflict⟩
    exact ⟨⟨fault.id, incoming⟩, mem_records_iff.mpr hincoming,
      fault?_eq_some_iff.mpr ⟨hits, hfound, hconflict⟩⟩

theorem pairwise_faults_merge (store other : ProbeStore) :
    (store.merge other).2.Pairwise fun a b => a.id < b.id := by
  rw [faults_merge, List.pairwise_filterMap]
  refine (pairwise_records other).imp fun hlt fault hfault fault' hfault' => ?_
  obtain ⟨_, -, hconflict⟩ := fault?_eq_some_iff.mp hfault
  obtain ⟨_, -, hconflict'⟩ := fault?_eq_some_iff.mp hfault'
  rwa [hconflict.id_eq, hconflict'.id_eq]

/-! ## Merges -/

/-- What a merge of two stores leaves of each class version, and the faults it notes. -/
structure Merges (store other merged : ProbeStore) (faults : List MergeFault) : Prop where
  kept : ∀ id, other.find? id = none → merged.find? id = store.find? id
  taken : ∀ id, store.find? id = none → merged.find? id = other.find? id
  /-- A probe is hit in the united record if it is hit in either. -/
  united : ∀ id hits incoming, store.find? id = some hits → other.find? id = some incoming →
    hits.Agrees incoming →
    ∃ both, merged.find? id = some both ∧ hits.Agrees both ∧
      ∀ probe, both.Hit probe ↔ hits.Hit probe ∨ incoming.Hit probe
  refused : ∀ id hits incoming, store.find? id = some hits → other.find? id = some incoming →
    ¬ hits.Agrees incoming → merged.find? id = some hits
  /-- No class version has two faults, and they are noted in ascending order. -/
  faults_sorted : faults.Pairwise fun a b => a.id < b.id
  mem_faults_iff : ∀ fault, fault ∈ faults ↔
    ∃ hits incoming, store.find? fault.id = some hits ∧ other.find? fault.id = some incoming ∧
      hits.Conflict fault.id incoming fault

theorem merges_merge (store other : ProbeStore) :
    store.Merges other (store.merge other).1 (store.merge other).2 where
  kept id hother := by rw [find?_merge, hother, Hits.join_none]
  taken id hstore := by rw [find?_merge, hstore, Hits.join]
  united id hits incoming hhits hincoming hagrees := by
    refine ⟨hits.union incoming, ?_, Hits.agrees_union hagrees, fun _ =>
      Hits.hit_union_iff hagrees⟩
    rw [find?_merge, hhits, hincoming, Hits.join, if_pos hagrees]
  refused id hits incoming hhits hincoming hagrees := by
    rw [find?_merge, hhits, hincoming, Hits.join, if_neg hagrees]
  faults_sorted := pairwise_faults_merge store other
  mem_faults_iff _ := mem_faults_merge_iff

/-- A record of the merged store is refused afterwards exactly as it was before. -/
theorem fault?_merge {store other : ProbeStore} {record : ProbeRecord}
    (hrecord : record ∈ other.records) :
    (store.merge other).1.fault? record = store.fault? record := by
  have hmerged : (store.merge other).1.find? record.id =
      Hits.join (store.find? record.id) (some record.hits) := by
    rw [find?_merge, mem_records_iff.mp hrecord]
  by_cases h : ∀ existing, store.find? record.id = some existing →
      existing.Agrees record.hits
  · -- what is there now agrees with what it comes from, the record or one that agrees with it
    rw [fault?_eq_none_iff.mpr h, fault?_eq_none_iff]
    intro existing hexisting
    obtain ⟨source, hsource | hsource, hagrees, -⟩ :=
      Hits.exists_of_join (hmerged.symm.trans hexisting) 0
    · exact hagrees.symm.trans (h source hsource)
    · obtain rfl := Option.some.inj hsource
      exact hagrees.symm
  · push Not at h
    obtain ⟨existing, hfound, hnot⟩ := h
    apply fault?_congr
    rw [hmerged, hfound, Hits.join, if_neg hnot]

/-- The second merge of a store takes nothing and refuses what the first one refused. -/
theorem merge_again (store other : ProbeStore) :
    (store.merge other).1.merge other = store.merge other := by
  refine Prod.ext (ext_find? fun id => ?_) ?_
  · rw [find?_merge, find?_merge, Hits.join_join_self]
  · rw [faults_merge, faults_merge]
    exact List.filterMap_congr fun record hrecord => fault?_merge hrecord

/-! ## Coherent stores -/

theorem coherent_pair_iff {store other : ProbeStore} :
    Coherent [store, other] ↔
      ∀ id hits incoming, store.find? id = some hits → other.find? id = some incoming →
        hits.Agrees incoming := by
  constructor
  · intro h id hits incoming hhits hincoming
    exact h ⟨id, hits⟩ ⟨id, incoming⟩ ⟨store, by simp, mem_records_iff.mpr hhits⟩
      ⟨other, by simp, mem_records_iff.mpr hincoming⟩ rfl
  · rintro h ⟨id, first⟩ ⟨_, second⟩ ⟨source, hsource, hfirst⟩ ⟨source', hsource', hsecond⟩ rfl
    rw [mem_records_iff] at hfirst hsecond
    rw [List.mem_pair] at hsource hsource'
    -- a store has no two records of one class version
    rcases hsource with rfl | rfl <;> rcases hsource' with rfl | rfl
    · obtain rfl := Option.some.inj (hfirst.symm.trans hsecond)
      exact Hits.Agrees.refl first
    · exact h id first second hfirst hsecond
    · exact (h id second first hsecond hfirst).symm
    · obtain rfl := Option.some.inj (hfirst.symm.trans hsecond)
      exact Hits.Agrees.refl first

theorem coherent_self (store : ProbeStore) : Coherent [store, store] := by
  rw [coherent_pair_iff]
  intro id hits incoming hhits hincoming
  obtain rfl := Option.some.inj (hhits.symm.trans hincoming)
  exact Hits.Agrees.refl hits

/-- Coherent stores merge without a fault. -/
theorem Coherent.faults_eq_nil {store other : ProbeStore} (h : Coherent [store, other]) :
    (store.merge other).2 = [] := by
  refine List.eq_nil_iff_forall_not_mem.mpr fun fault hfault => ?_
  obtain ⟨hits, incoming, hhits, hincoming, hconflict⟩ := mem_faults_merge_iff.mp hfault
  exact hconflict.not_agrees (coherent_pair_iff.mp h _ _ _ hhits hincoming)

theorem mergeAll_singleton (store : ProbeStore) : mergeAll [store] = store := by
  refine ext_find? fun id => ?_
  rw [find?_mergeAll, List.map_singleton, List.foldl_cons, Hits.join, List.foldl_nil]

theorem mergeAll_snoc (stores : List ProbeStore) (other : ProbeStore) :
    mergeAll (stores ++ [other]) = ((mergeAll stores).merge other).1 := by
  rw [mergeAll, List.foldl_append, List.foldl_cons, List.foldl_nil, ← mergeAll]

theorem mergeAll_pair (store other : ProbeStore) :
    mergeAll [store, other] = (store.merge other).1 := by
  have hpair := mergeAll_snoc [store] other
  rwa [mergeAll_singleton] at hpair

theorem merge_self (store : ProbeStore) : store.merge store = (store, []) := by
  refine Prod.ext ?_ (coherent_self store).faults_eq_nil
  have hsame := @mergeAll_congr _ [store] (coherent_self store) (by simp)
  rwa [mergeAll_pair, mergeAll_singleton] at hsame

theorem merge_comm {store other : ProbeStore} (h : Coherent [store, other]) :
    store.merge other = other.merge store := by
  have hother : Coherent [other, store] := h.mono (by simp)
  refine Prod.ext ?_ (h.faults_eq_nil.trans hother.faults_eq_nil.symm)
  have hsame := @mergeAll_congr _ [other, store] h (by simp [or_comm])
  rwa [mergeAll_pair, mergeAll_pair] at hsame

theorem Coherent.merge_left {first second third : ProbeStore}
    (h : Coherent [first, second, third]) : Coherent [(first.merge second).1, third] := by
  have hgroups := @Coherent.map_mergeAll [[first, second], [third]] h
  rwa [List.map_cons, List.map_cons, List.map_nil, mergeAll_pair, mergeAll_singleton] at hgroups

theorem Coherent.merge_right {first second third : ProbeStore}
    (h : Coherent [first, second, third]) : Coherent [first, (second.merge third).1] := by
  have hgroups := @Coherent.map_mergeAll [[first], [second, third]] h
  rwa [List.map_cons, List.map_cons, List.map_nil, mergeAll_pair, mergeAll_singleton] at hgroups

/-- Both groupings are the three stores merged one after the other. -/
theorem merge_assoc {first second third : ProbeStore} (h : Coherent [first, second, third]) :
    (first.merge second).1.merge third = first.merge (second.merge third).1 := by
  have hthree (a b c : ProbeStore) : mergeAll [a, b, c] = ((a.merge b).1.merge c).1 := by
    rw [← mergeAll_pair a b, ← mergeAll_snoc]
    rfl
  have hturned := @mergeAll_congr _ [second, third, first] h (by simp; tauto)
  rw [hthree, hthree] at hturned
  refine Prod.ext ?_ (h.merge_left.faults_eq_nil.trans h.merge_right.faults_eq_nil.symm)
  rw [hturned, merge_comm h.merge_right]

/-! ## All laws -/

/-- A merge unites what agrees, keeps what does not and notes it, class version by class version.
So a refused record leaves the store as it was, merging a store into itself or again into
another one changes nothing more, and coherent stores merge without faults in any order and
grouping. -/
theorem merge_classwise (store other : ProbeStore) :
    store.Merges other (store.merge other).1 (store.merge other).2 ∧
      (∀ record fault, store.put record = .error fault →
        ∀ faults, offer (store, faults) record = (store, faults ++ [fault])) ∧
      store.merge store = (store, []) ∧
      (store.merge other).1.merge other = store.merge other ∧
      (Coherent [store, other] →
        store.merge other = other.merge store ∧ (store.merge other).2 = []) ∧
      ∀ third, Coherent [store, other, third] →
        (store.merge other).1.merge third = store.merge (other.merge third).1 ∧
          (store.merge other).2 = [] ∧ ((store.merge other).1.merge third).2 = [] ∧
          (other.merge third).2 = [] := by
  refine ⟨merges_merge store other, ?_, merge_self store, merge_again store other, ?_, ?_⟩
  · intro record fault hput faults
    rw [offer, hput]
  · intro h
    exact ⟨merge_comm h, h.faults_eq_nil⟩
  · intro third h
    have hfirst : Coherent [store, other] := h.mono (by simp)
    have hlast : Coherent [other, third] := h.mono (by simp)
    exact ⟨merge_assoc h, hfirst.faults_eq_nil, h.merge_left.faults_eq_nil, hlast.faults_eq_nil⟩

end ProbeStore

end TestCoverage

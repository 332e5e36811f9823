import Mathlib
import TestCoverage.Probe.Store

/-!
# Probe stores class by class

What a store has for a class version after a merge is determined by what both stores have for
that version (`ProbeStore.find?_merge`), and so for merges one after the other
(`ProbeStore.find?_mergeAll`). The two records either agree on name and number of probes
and are united, or the first one stays (`Hits.join`).

* `ProbeStore.exists_heldBy_of_mem_mergeAll`: a probe that is hit after all merges is hit in a
  record of one of the stores, and that record agrees with the merged one.
* `ProbeStore.exists_mem_mergeAll_of_heldBy`: no hit is lost if the records agree.
* `ProbeStore.mergeAll_congr`: then the order of the merges does not matter either.
-/

namespace TestCoverage

namespace Hits

/-- The records name the same class and have as many probes. -/
def Agrees (hits other : Hits) : Prop :=
  hits.className = other.className ∧ hits.probes.length = other.probes.length

instance (hits other : Hits) : Decidable (hits.Agrees other) :=
  inferInstanceAs (Decidable (_ ∧ _))

theorem Agrees.refl (hits : Hits) : hits.Agrees hits := ⟨rfl, rfl⟩

theorem Agrees.symm {hits other : Hits} (h : hits.Agrees other) : other.Agrees hits :=
  ⟨h.1.symm, h.2.symm⟩

theorem Agrees.trans {a b c : Hits} (hab : a.Agrees b) (hbc : b.Agrees c) : a.Agrees c :=
  ⟨hab.1.trans hbc.1, hab.2.trans hbc.2⟩

/-- A probe of the record was hit. -/
def Hit (hits : Hits) (probe : Nat) : Prop := hits.probes[probe]? = some true

def union (hits incoming : Hits) : Hits :=
  ⟨hits.className, List.zipWith (· || ·) hits.probes incoming.probes⟩

/-- Records that agree merge into their union, and no others. -/
theorem merge_eq_ok_iff {id : ClassId} {hits incoming merged : Hits} :
    hits.merge id incoming = .ok merged ↔ hits.Agrees incoming ∧ merged = hits.union incoming := by
  unfold merge Agrees
  split
  · next hname => simp [hname]
  · next hname =>
    split
    · next hcount => simp [hcount]
    · next hcount => simp [not_not.mp hname, not_not.mp hcount, union, eq_comm]

theorem agrees_union {hits incoming : Hits} (h : hits.Agrees incoming) :
    hits.Agrees (hits.union incoming) := by
  refine ⟨rfl, ?_⟩
  simp [union, h.2]

theorem hit_union_iff {hits incoming : Hits} (h : hits.Agrees incoming) {probe : Nat} :
    (hits.union incoming).Hit probe ↔ hits.Hit probe ∨ incoming.Hit probe := by
  unfold Hit union
  by_cases hlt : probe < hits.probes.length
  · have hlt' : probe < incoming.probes.length := h.2 ▸ hlt
    simp [List.getElem?_zipWith, List.getElem?_eq_getElem hlt, List.getElem?_eq_getElem hlt']
  · have hout := List.getElem?_eq_none (Nat.not_lt.mp hlt)
    have hout' := List.getElem?_eq_none (Nat.not_lt.mp (h.2 ▸ hlt))
    simp [List.getElem?_zipWith, hout, hout']

/-- Records that agree and have the same hits are equal. -/
theorem ext_hit {hits other : Hits} (h : hits.Agrees other)
    (hhit : ∀ probe, hits.Hit probe ↔ other.Hit probe) : hits = other := by
  obtain ⟨className, probes⟩ := hits
  obtain ⟨_, others⟩ := other
  obtain ⟨rfl, hlength⟩ := h
  refine congrArg (Hits.mk className) (List.ext_getElem hlength fun probe hlt hlt' => ?_)
  have hprobe := hhit probe
  unfold Hit at hprobe
  rw [List.getElem?_eq_getElem hlt, List.getElem?_eq_getElem hlt', Option.some_inj,
    Option.some_inj] at hprobe
  exact Bool.eq_iff_iff.mpr hprobe

/-! ## Joining what two stores have -/

/-- What a store has for a class version when it takes what another one has. -/
def join : Option Hits → Option Hits → Option Hits
  | none, incoming => incoming
  | some hits, none => some hits
  | some hits, some incoming =>
    if hits.Agrees incoming then some (hits.union incoming) else some hits

@[simp] theorem join_none (first : Option Hits) : join first none = first := by
  cases first <;> rfl

/-- A hit of the joined record is one of a record that agrees with it. -/
theorem exists_of_join {first second : Option Hits} {hits : Hits}
    (h : join first second = some hits) (probe : Nat) :
    ∃ source, (first = some source ∨ second = some source) ∧ source.Agrees hits ∧
      (hits.Hit probe → source.Hit probe) := by
  cases first with
  | none => exact ⟨hits, Or.inr h, Agrees.refl hits, id⟩
  | some existing =>
    cases second with
    | none => exact ⟨hits, Or.inl h, Agrees.refl hits, id⟩
    | some incoming =>
      rw [join] at h
      split at h
      · next hagrees =>
        obtain ⟨rfl⟩ := Option.some.inj h
        by_cases hincoming : incoming.Hit probe
        · exact ⟨incoming, Or.inr rfl, hagrees.symm.trans (agrees_union hagrees),
            fun _ => hincoming⟩
        · exact ⟨existing, Or.inl rfl, agrees_union hagrees,
            fun hhit => ((hit_union_iff hagrees).mp hhit).resolve_right hincoming⟩
      · exact ⟨hits, Or.inl h, Agrees.refl hits, id⟩

/-- The record agrees with the other one and has its hits. -/
def Covers (hits other : Hits) : Prop :=
  other.Agrees hits ∧ ∀ probe, other.Hit probe → hits.Hit probe

theorem Covers.refl (hits : Hits) : hits.Covers hits := ⟨Agrees.refl hits, fun _ => id⟩

theorem Covers.trans {a b c : Hits} (hab : a.Covers b) (hbc : b.Covers c) : a.Covers c :=
  ⟨hbc.1.trans hab.1, fun probe h => hab.2 probe (hbc.2 probe h)⟩

theorem union_covers_left {hits incoming : Hits} (h : hits.Agrees incoming) :
    (hits.union incoming).Covers hits :=
  ⟨agrees_union h, fun _ hhit => (hit_union_iff h).mpr (Or.inl hhit)⟩

theorem union_covers_right {hits incoming : Hits} (h : hits.Agrees incoming) :
    (hits.union incoming).Covers incoming :=
  ⟨h.symm.trans (agrees_union h), fun _ hhit => (hit_union_iff h).mpr (Or.inr hhit)⟩

/-! ## Joining one after the other -/

/-- What is there loses nothing, whatever comes. -/
theorem foldl_join_some (list : List (Option Hits)) (hits : Hits) :
    ∃ merged, list.foldl join (some hits) = some merged ∧ merged.Covers hits := by
  induction list generalizing hits with
  | nil => exact ⟨hits, rfl, Covers.refl _⟩
  | cons next rest ih =>
    obtain ⟨joined, hjoined, hcovers⟩ : ∃ joined, join (some hits) next = some joined ∧
        joined.Covers hits := by
      cases next with
      | none => exact ⟨hits, rfl, Covers.refl _⟩
      | some incoming =>
        rw [join]
        split
        · next hagrees => exact ⟨_, rfl, union_covers_left hagrees⟩
        · exact ⟨hits, rfl, Covers.refl _⟩
    obtain ⟨merged, hmerged, hmore⟩ := ih joined
    rw [List.foldl_cons, hjoined]
    exact ⟨merged, hmerged, hmore.trans hcovers⟩

/-- A hit after all merges is a hit of one of the records, which agrees with the merged one. -/
theorem exists_of_foldl_join {list : List (Option Hits)} {hits : Hits}
    (h : list.foldl join none = some hits) (probe : Nat) :
    ∃ source, some source ∈ list ∧ source.Agrees hits ∧ (hits.Hit probe → source.Hit probe) := by
  induction list using List.reverseRecOn generalizing hits with
  | nil => cases h
  | append_singleton list last ih =>
    rw [List.foldl_append, List.foldl_cons, List.foldl_nil] at h
    obtain ⟨source, hsource | hsource, hagrees, hhit⟩ := exists_of_join h probe
    · obtain ⟨first, hfirst, hfirstAgrees, hfirstHit⟩ := ih hsource
      exact ⟨first, by simp [hfirst], hfirstAgrees.trans hagrees, hfirstHit ∘ hhit⟩
    · exact ⟨source, by simp [hsource], hagrees, hhit⟩

/-- No hit of a record is lost if all records agree with it. -/
theorem foldl_join_covers {list : List (Option Hits)} {hits : Hits} (hmem : some hits ∈ list)
    (hagree : ∀ other, some other ∈ list → other.Agrees hits) :
    ∃ merged, list.foldl join none = some merged ∧ merged.Covers hits := by
  obtain ⟨before, after, rfl⟩ := List.append_of_mem hmem
  rw [List.foldl_append, List.foldl_cons]
  -- what came before agrees with some record before it, so the two are united
  obtain ⟨joined, hjoined, hcovers⟩ : ∃ joined,
      join (before.foldl join none) (some hits) = some joined ∧ joined.Covers hits := by
    cases hbefore : before.foldl join none with
    | none => exact ⟨hits, rfl, Covers.refl _⟩
    | some existing =>
      obtain ⟨source, hsource, hsourceAgrees, -⟩ := exists_of_foldl_join hbefore 0
      have hagrees : existing.Agrees hits :=
        hsourceAgrees.symm.trans (hagree source (by simp [hsource]))
      rw [join, if_pos hagrees]
      exact ⟨_, rfl, union_covers_right hagrees⟩
  obtain ⟨merged, hmerged, hmore⟩ := foldl_join_some after joined
  rw [hjoined]
  exact ⟨merged, hmerged, hmore.trans hcovers⟩

/-- What is merged from the records of one list is covered by what is merged from the same
records in another list. -/
theorem exists_foldl_join_covers {list others : List (Option Hits)} {merged : Hits}
    (hsame : ∀ hits, some hits ∈ list ↔ some hits ∈ others)
    (hagree : ∀ hits other, some hits ∈ list → some other ∈ list → hits.Agrees other)
    (hmerged : list.foldl join none = some merged) :
    ∃ other, others.foldl join none = some other ∧ other.Covers merged := by
  have hcovers {source : Hits} (hsource : some source ∈ list) :=
    foldl_join_covers ((hsame source).mp hsource) fun other hother =>
      hagree other source ((hsame other).mpr hother) hsource
  obtain ⟨first, hfirst, hagrees, -⟩ := exists_of_foldl_join hmerged 0
  obtain ⟨other, hother, hcoversFirst⟩ := hcovers hfirst
  refine ⟨other, hother, hagrees.symm.trans hcoversFirst.1, fun probe hhit => ?_⟩
  -- each hit comes from a record, which may be another one for each probe
  obtain ⟨source, hsource, -, hsourceHit⟩ := exists_of_foldl_join hmerged probe
  obtain ⟨other', hother', hcoversSource⟩ := hcovers hsource
  obtain rfl := Option.some.inj (hother.symm.trans hother')
  exact hcoversSource.2 probe (hsourceHit hhit)

/-- What is there after all merges is told by which records were merged, if these agree. -/
theorem foldl_join_congr {list others : List (Option Hits)}
    (hsame : ∀ hits, some hits ∈ list ↔ some hits ∈ others)
    (hagree : ∀ hits other, some hits ∈ list → some other ∈ list → hits.Agrees other) :
    list.foldl join none = others.foldl join none := by
  have hsame' (hits : Hits) := (hsame hits).symm
  have hagree' (hits other : Hits) (hhits : some hits ∈ others) (hother : some other ∈ others) :
      hits.Agrees other := hagree hits other ((hsame hits).mpr hhits) ((hsame other).mpr hother)
  cases hlist : list.foldl join none with
  | some merged =>
    obtain ⟨other, hother, hmore⟩ := exists_foldl_join_covers hsame hagree hlist
    obtain ⟨merged', hmerged', hless⟩ := exists_foldl_join_covers hsame' hagree' hother
    obtain rfl := Option.some.inj (hlist.symm.trans hmerged')
    rw [hother, ext_hit hmore.1 fun probe => ⟨hmore.2 probe, hless.2 probe⟩]
  | none =>
    cases hothers : others.foldl join none with
    | none => rfl
    | some other =>
      obtain ⟨merged, hmerged, -⟩ := exists_foldl_join_covers hsame' hagree' hothers
      cases hlist.symm.trans hmerged

end Hits

namespace ProbeStore

theorem find?_set (store : ProbeStore) (id other : ClassId) (hits : Hits) :
    (⟨store.byId.set id hits⟩ : ProbeStore).find? other =
      if id = other then some hits else store.find? other :=
  OrderedMap.find?_set store.byId id other hits

theorem ext_find? {store other : ProbeStore} (h : ∀ id, store.find? id = other.find? id) :
    store = other :=
  congrArg ProbeStore.mk (OrderedMap.ext_find? h)

/-- The store takes the record: the record agrees with the one of its class version, if there
is one, and the two are united. -/
structure Takes (store : ProbeStore) (record : ProbeRecord) (next : ProbeStore) : Prop where
  agrees : ∀ existing, store.find? record.id = some existing → existing.Agrees record.hits
  find?_eq : ∀ id, next.find? id =
    if record.id = id then Hits.join (store.find? id) (some record.hits) else store.find? id

theorem Takes.unique {store first second : ProbeStore} {record : ProbeRecord}
    (hfirst : store.Takes record first) (hsecond : store.Takes record second) : first = second :=
  ext_find? fun id => (hfirst.find?_eq id).trans (hsecond.find?_eq id).symm

/-- A record that agrees with the one of its class version is put. -/
theorem exists_put {store : ProbeStore} {record : ProbeRecord}
    (h : ∀ existing, store.find? record.id = some existing → existing.Agrees record.hits) :
    ∃ next, store.put record = .ok next ∧ store.Takes record next := by
  unfold put
  cases hfound : store.find? record.id with
  | none =>
    refine ⟨_, rfl, h, fun id => ?_⟩
    rw [find?_set]
    split
    · next hid => rw [← hid, hfound, Hits.join]
    · rfl
  | some existing =>
    have hagrees := h existing hfound
    dsimp only
    rw [Hits.merge_eq_ok_iff.mpr ⟨hagrees, rfl⟩]
    refine ⟨_, rfl, h, fun id => ?_⟩
    rw [find?_set]
    split
    · next hid => rw [← hid, hfound, Hits.join, if_pos hagrees]
    · rfl

theorem put_of_not_agrees {store : ProbeStore} {record : ProbeRecord} {existing : Hits}
    (h : store.find? record.id = some existing) (hagrees : ¬ existing.Agrees record.hits) :
    ∃ fault, store.put record = .error fault := by
  rw [put, h]
  dsimp only
  cases hmerge : existing.merge record.id record.hits with
  | ok merged => exact absurd (Hits.merge_eq_ok_iff.mp hmerge).1 hagrees
  | error fault => exact ⟨fault, rfl⟩

theorem put_eq_ok_iff {store next : ProbeStore} {record : ProbeRecord} :
    store.put record = .ok next ↔ store.Takes record next := by
  constructor
  · intro hput
    have hagrees : ∀ existing, store.find? record.id = some existing →
        existing.Agrees record.hits := by
      intro existing hfound
      by_contra hnot
      obtain ⟨fault, herror⟩ := put_of_not_agrees hfound hnot
      rw [hput] at herror
      cases herror
    obtain ⟨other, hother, htakes⟩ := exists_put hagrees
    obtain ⟨rfl⟩ := Except.ok.inj (hput.symm.trans hother)
    exact htakes
  · intro htakes
    obtain ⟨other, hput, hother⟩ := exists_put htakes.agrees
    rw [hput, hother.unique htakes]

/-- A record that is offered changes what the store has for its class version and nothing
else. -/
theorem find?_offer (state : ProbeStore × List MergeFault) (record : ProbeRecord) (id : ClassId) :
    (offer state record).1.find? id =
      if record.id = id then Hits.join (state.1.find? id) (some record.hits)
      else state.1.find? id := by
  unfold offer
  by_cases hagrees : ∀ existing, state.1.find? record.id = some existing →
      existing.Agrees record.hits
  · obtain ⟨next, hput, htakes⟩ := exists_put hagrees
    rw [hput]
    exact htakes.find?_eq id
  · push Not at hagrees
    obtain ⟨existing, hfound, hnot⟩ := hagrees
    obtain ⟨fault, hput⟩ := put_of_not_agrees hfound hnot
    rw [hput]
    dsimp only
    split
    · next hid => rw [← hid, hfound, Hits.join, if_neg hnot]
    · rfl

theorem find?_foldl_offer {entries : List (ClassId × Hits)}
    (hsorted : entries.Pairwise fun a b => a.1 < b.1) (state : ProbeStore × List MergeFault)
    (id : ClassId) :
    ((entries.map fun (id, hits) => (⟨id, hits⟩ : ProbeRecord)).foldl offer state).1.find? id =
      Hits.join (state.1.find? id) (OrderedMap.findEntry id entries) := by
  induction entries generalizing state with
  | nil => simp [OrderedMap.findEntry]
  | cons entry rest ih =>
    obtain ⟨hhead, hrest⟩ := List.pairwise_cons.mp hsorted
    rw [List.map_cons, List.foldl_cons, ih hrest, find?_offer, OrderedMap.findEntry]
    dsimp only
    split
    · next hid =>
      have hnone : OrderedMap.findEntry id rest = none :=
        OrderedMap.findEntry_eq_none fun other hother heq =>
          KeyOrder.irrefl id (by simpa [hid, heq] using hhead other hother)
      rw [hnone, Hits.join_none]
    · rfl

/-- Merging two stores joins what they have for each class version. -/
theorem find?_merge (store other : ProbeStore) (id : ClassId) :
    (store.merge other).1.find? id = Hits.join (store.find? id) (other.find? id) :=
  find?_foldl_offer other.byId.sorted (store, []) id

theorem mem_records_iff {store : ProbeStore} {record : ProbeRecord} :
    record ∈ store.records ↔ store.find? record.id = some record.hits := by
  rw [find?, ← OrderedMap.mem_entries_iff, records, List.mem_map]
  constructor
  · rintro ⟨⟨id, hits⟩, hmem, rfl⟩
    exact hmem
  · exact fun hmem => ⟨(record.id, record.hits), hmem, rfl⟩

/-! ## Merging one after the other -/

/-- One of the stores has the record. -/
def HeldBy (stores : List ProbeStore) (record : ProbeRecord) : Prop :=
  ∃ store ∈ stores, record ∈ store.records

/-- The stores merged one after the other. -/
def mergeAll (stores : List ProbeStore) : ProbeStore :=
  stores.foldl (fun store other => (store.merge other).1) .empty

theorem find?_foldl_merge (stores : List ProbeStore) (start : ProbeStore) (id : ClassId) :
    (stores.foldl (fun store other => (store.merge other).1) start).find? id =
      (stores.map (·.find? id)).foldl Hits.join (start.find? id) := by
  induction stores generalizing start with
  | nil => rfl
  | cons other rest ih => rw [List.foldl_cons, ih, find?_merge, List.map_cons, List.foldl_cons]

theorem find?_mergeAll (stores : List ProbeStore) (id : ClassId) :
    (mergeAll stores).find? id = (stores.map (·.find? id)).foldl Hits.join none :=
  find?_foldl_merge stores .empty id

theorem some_mem_map_find?_iff {stores : List ProbeStore} {id : ClassId} {hits : Hits} :
    some hits ∈ stores.map (·.find? id) ↔ HeldBy stores ⟨id, hits⟩ := by
  simp only [List.mem_map, HeldBy, mem_records_iff]

/-- A hit of the merged store is one of a record that a store has. -/
theorem exists_heldBy_of_mem_mergeAll {stores : List ProbeStore} {record : ProbeRecord}
    (h : record ∈ (mergeAll stores).records) (probe : Nat) :
    ∃ source, HeldBy stores source ∧ source.id = record.id ∧ source.hits.Agrees record.hits ∧
      (record.hits.Hit probe → source.hits.Hit probe) := by
  rw [mem_records_iff, find?_mergeAll] at h
  obtain ⟨source, hsource, hagrees, hhit⟩ := Hits.exists_of_foldl_join h probe
  exact ⟨⟨record.id, source⟩, some_mem_map_find?_iff.mp hsource, rfl, hagrees, hhit⟩

/-- If the records of a class version agree, the merged store has all their hits. -/
theorem exists_mem_mergeAll_of_heldBy {stores : List ProbeStore} {source : ProbeRecord}
    (h : HeldBy stores source)
    (hagree : ∀ other, HeldBy stores other → other.id = source.id →
      other.hits.Agrees source.hits) :
    ∃ record ∈ (mergeAll stores).records, record.id = source.id ∧
      record.hits.Covers source.hits := by
  obtain ⟨merged, hmerged, hcovers⟩ := Hits.foldl_join_covers (some_mem_map_find?_iff.mpr h)
    fun other hother => hagree ⟨source.id, other⟩ (some_mem_map_find?_iff.mp hother) rfl
  rw [← find?_mergeAll] at hmerged
  exact ⟨⟨source.id, merged⟩, mem_records_iff.mpr hmerged, rfl, hcovers⟩

/-- The records that the stores have for one class version agree. -/
def Coherent (stores : List ProbeStore) : Prop :=
  ∀ first second, HeldBy stores first → HeldBy stores second → first.id = second.id →
    first.hits.Agrees second.hits

instance (stores : List ProbeStore) : Decidable (Coherent stores) :=
  decidable_of_iff (∀ first ∈ stores.flatMap records, ∀ second ∈ stores.flatMap records,
      first.id = second.id → first.hits.Agrees second.hits) <| by
    simp only [List.mem_flatMap]
    exact ⟨fun h first second hfirst hsecond => h first hfirst second hsecond,
      fun h first hfirst second hsecond => h first second hfirst hsecond⟩

theorem Coherent.mono {stores others : List ProbeStore} (h : Coherent stores)
    (hsubset : ∀ store ∈ others, store ∈ stores) : Coherent others := by
  rintro first second ⟨store, hstore, hfirst⟩ ⟨other, hother, hsecond⟩
  exact h first second ⟨store, hsubset store hstore, hfirst⟩ ⟨other, hsubset other hother, hsecond⟩

/-- Coherent stores merge to the same, in whatever order and however often they come. -/
theorem mergeAll_congr {stores others : List ProbeStore} (h : Coherent stores)
    (hsame : ∀ store, store ∈ stores ↔ store ∈ others) : mergeAll stores = mergeAll others := by
  refine ext_find? fun id => ?_
  rw [find?_mergeAll, find?_mergeAll]
  refine Hits.foldl_join_congr (fun hits => ?_) fun hits other hhits hother => ?_
  · simp only [some_mem_map_find?_iff, HeldBy, hsame]
  · exact h ⟨id, hits⟩ ⟨id, other⟩ (some_mem_map_find?_iff.mp hhits)
      (some_mem_map_find?_iff.mp hother) rfl

/-- Merging groups of stores keeps their records in agreement. -/
theorem Coherent.map_mergeAll {groups : List (List ProbeStore)} (h : Coherent groups.flatten) :
    Coherent (groups.map mergeAll) := by
  -- a merged record agrees with one that it comes from
  have hsource {record : ProbeRecord} (hheld : HeldBy (groups.map mergeAll) record) :
      ∃ source, HeldBy groups.flatten source ∧ source.id = record.id ∧
        source.hits.Agrees record.hits := by
    obtain ⟨merged, hmerged, hrecord⟩ := hheld
    obtain ⟨group, hgroup, rfl⟩ := List.mem_map.mp hmerged
    obtain ⟨source, ⟨store, hstore, hmem⟩, hid, hagrees, -⟩ :=
      exists_heldBy_of_mem_mergeAll hrecord 0
    exact ⟨source, ⟨store, List.mem_flatten.mpr ⟨group, hgroup, hstore⟩, hmem⟩, hid, hagrees⟩
  intro first second hfirst hsecond hid
  obtain ⟨source, hheld, hsame, hagrees⟩ := hsource hfirst
  obtain ⟨source', hheld', hsame', hagrees'⟩ := hsource hsecond
  have hboth := h source source' hheld hheld' (hsame.trans (hid.trans hsame'.symm))
  exact hagrees.symm.trans (hboth.trans hagrees')

end ProbeStore

end TestCoverage

import FlatTable.Proofs.Layout
import FlatTable.Proofs.PairMap

/-!
# Tables as maps

A table stands for the association list of its pairs, in any order. Looking a key up tells whether some pair belongs to it and where; from there, changing the value, taking the bucket out and adding a new one do to the table what the operations of association lists do to the pairs.
-/

namespace FlatTable

universe u v

variable {K : Type u} {V : Type v}

namespace Table

variable [BEq K]

/-! ### Looking up -/

theorem isFor_eq {t : Table K V} (h : t.LayoutInvariant) {b : Bucket K V} (hb : b ∈ t.buckets) (k : K) :
    b.isFor (t.spreadHash k) k = sameKey t.hash b.key k := by
  rw [Bucket.isFor, h.hashed b hb]
  rfl

/-- The keys of a table's pairs are told apart by their spread hashes or by themselves. -/
theorem distinct_toList {t : Table K V} (h : t.LayoutInvariant) : PairMap.Distinct (sameKey t.hash) t.toList := by
  rw [PairMap.Distinct, toList, List.pairwise_map]
  refine h.distinct.imp_of_mem ?_
  intro a b ha hb hab
  rw [h.hashed a ha, h.hashed b hb] at hab
  rw [sameKey, Bool.eq_false_iff]
  simpa [spreadHash, Bucket.toPair] using hab

theorem locate?_eq_none_iff {t : Table K V} (h : t.LayoutInvariant) {k : K} :
    t.locate? k = none ↔ ∀ p ∈ t.toList, sameKey t.hash p.1 k = false := by
  rw [locate?_eq_none h, toList, List.forall_mem_map]
  constructor
  · intro hnone b hb
    rw [← hnone b hb, isFor_eq h hb]
    rfl
  · intro hnone b hb
    rw [isFor_eq h hb]
    exact hnone b hb

theorem mem_buckets_of_bucketAt? {t : Table K V} (h : t.LayoutInvariant) {loc : Location} {b : Bucket K V}
    (hb : t.bucketAt? loc = some b) : b ∈ t.buckets := by
  obtain ⟨before, after, hsplit, -⟩ := buckets_modifyValueAt h.wellFormed hb
  rw [hsplit]
  simp

theorem bucketAt?_of_locate?_eq_some {t : Table K V} (h : t.LayoutInvariant) {k : K} {loc : Location}
    (hloc : t.locate? k = some loc) : ∃ b, t.bucketAt? loc = some b ∧ sameKey t.hash b.key k = true := by
  obtain ⟨b, hb, hfor⟩ := bucketAt?_of_locate? h hloc
  exact ⟨b, hb, by rw [← isFor_eq h (mem_buckets_of_bucketAt? h hb), hfor]⟩

/-! ### The map of a table -/

/-- A table stores the pairs of a map. -/
structure Models (t : Table K V) (m : PairMap K V) : Prop where
  layout : t.LayoutInvariant
  perm : t.toList.Perm m.pairs

section Models

variable [EquivBEq K] {t : Table K V} {m : PairMap K V} {k : K} {loc : Location}

omit [EquivBEq K] in
theorem size_eq_of_models (h : t.Models m) : t.size = m.size := by
  rw [← h.layout.length_toList, h.perm.length_eq, PairMap.size]

theorem distinct_of_models (h : t.Models m) : PairMap.Distinct (sameKey t.hash) m.pairs :=
  PairMap.distinct_of_perm (sameKey_equivalence t.hash) h.perm (distinct_toList h.layout)

omit [EquivBEq K] in
theorem not_mem_of_models (h : t.Models m) (hnone : t.locate? k = none) :
    ∀ p ∈ m.pairs, sameKey t.hash p.1 k = false := by
  intro p hp
  exact (locate?_eq_none_iff h.layout).mp hnone p (h.perm.mem_iff.mpr hp)

theorem getEntry?_eq (h : t.Models m) (k : K) : t.getEntry? k = m.find? (sameKey t.hash) k := by
  rcases hloc : t.locate? k with - | loc
  · rw [PairMap.find?_eq_none (not_mem_of_models h hloc), getEntry?, hloc]
    rfl
  · obtain ⟨b, hb, hk⟩ := bucketAt?_of_locate?_eq_some h.layout hloc
    have hmem : b.toPair ∈ m.pairs :=
      h.perm.mem_iff.mp (List.mem_map_of_mem (mem_buckets_of_bucketAt? h.layout hb))
    rw [PairMap.find?_of_mem (sameKey_equivalence t.hash) (distinct_of_models h) hmem hk, getEntry?, hloc,
      Option.bind_some, hb]
    rfl

theorem get?_eq (h : t.Models m) (k : K) : t.get? k = (m.find? (sameKey t.hash) k).map Prod.snd := by
  rw [get?, getEntry?_eq h]

theorem find?_of_locate? (h : t.Models m) (hloc : t.locate? k = some loc) :
    (t.bucketAt? loc).map Bucket.toPair = m.find? (sameKey t.hash) k := by
  rw [← getEntry?_eq h, getEntry?, hloc]
  rfl

theorem contains_eq (h : t.Models m) (k : K) : t.contains k = (m.find? (sameKey t.hash) k).isSome := by
  rcases hloc : t.locate? k with - | loc
  · rw [contains, hloc, PairMap.find?_eq_none (not_mem_of_models h hloc)]
    rfl
  · obtain ⟨b, hb, hk⟩ := bucketAt?_of_locate?_eq_some h.layout hloc
    rw [contains, hloc, ← find?_of_locate? h hloc, hb]
    rfl

/-- Changing the value of a key changes nothing else, the order of the pairs included. -/
theorem toList_modifyValueAt (h : t.LayoutInvariant) (hloc : t.locate? k = some loc) (f : V → V) :
    (t.modifyValueAt loc f).toList = ((⟨t.toList⟩ : PairMap K V).modify (sameKey t.hash) k f).pairs := by
  obtain ⟨b, hb, hk⟩ := bucketAt?_of_locate?_eq_some h hloc
  obtain ⟨before, after, hold, hnew⟩ := buckets_modifyValueAt h.wellFormed hb
  have hlist : t.toList = before.map Bucket.toPair ++ b.toPair :: after.map Bucket.toPair := by
    rw [toList, hold, List.map_append, List.map_cons]
  have hdistinct := distinct_toList h
  rw [hlist] at hdistinct
  rw [hlist, PairMap.modify_of_split (sameKey_equivalence t.hash) hdistinct hk, toList, hnew, List.map_append,
    List.map_cons]
  rfl

theorem models_modifyValueAt (h : t.Models m) (hloc : t.locate? k = some loc) (f : V → V) :
    (t.modifyValueAt loc f).Models (m.modify (sameKey t.hash) k f) := by
  refine ⟨(keeps_modifyValueAt t loc f).layout h.layout, ?_⟩
  rw [toList_modifyValueAt h.layout hloc]
  exact h.perm.map _

theorem models_dropAt (h : t.Models m) (hloc : t.locate? k = some loc) :
    (t.dropAt loc).Models (m.erase (sameKey t.hash) k) := by
  obtain ⟨b, hb, hk⟩ := bucketAt?_of_locate?_eq_some h.layout hloc
  obtain ⟨before, after, hold, -, hnew⟩ := exists_traversal_split h.layout.wellFormed hb
  have hlist : t.toList = before.map Bucket.toPair ++ b.toPair :: after.map Bucket.toPair := by
    rw [toList, buckets, hold, List.map_append, List.map_cons]
  have hdistinct := distinct_toList h.layout
  rw [hlist] at hdistinct
  have herase := PairMap.erase_of_split (sameKey_equivalence t.hash) hdistinct hk
  rw [← hlist, PairMap.erase, PairMap.mk.injEq, ← List.map_append] at herase
  refine ⟨layoutInvariant_dropAt h.layout hb, (hnew.map Bucket.toPair).trans ?_⟩
  rw [← herase]
  exact h.perm.filter _

theorem models_addNew (h : t.Models m) (hnone : t.locate? k = none) (v : V) :
    (t.addNew (t.spreadHash k) k v).1.Models (m.insert (sameKey t.hash) k v) := by
  refine ⟨layoutInvariant_addNew h.layout hnone v, ?_⟩
  have hperm := buckets_addNew_perm h.layout.wellFormed h.layout.capacity_pos (t.spreadHash k) k v
  rw [PairMap.insert_of_not_any (not_mem_of_models h hnone)]
  exact ((hperm.map Bucket.toPair).trans (h.perm.cons (k, v))).trans (List.perm_append_singleton (k, v) m.pairs).symm

theorem models_grow (h : t.Models m) : t.grow.Models m :=
  ⟨(keeps_grow t).layout h.layout, ((buckets_grow_perm h.layout.capacity_pos).map Bucket.toPair).trans h.perm⟩

theorem locate?_grow_eq_none (h : t.LayoutInvariant) (hnone : t.locate? k = none) : t.grow.locate? k = none := by
  rw [locate?_eq_none_iff ((keeps_grow t).layout h), hash_grow]
  intro p hp
  have hperm : t.grow.toList.Perm t.toList := (buckets_grow_perm h.capacity_pos).map Bucket.toPair
  exact (locate?_eq_none_iff h).mp hnone p (hperm.mem_iff.mp hp)

/-! ### Operations on one key -/

theorem locate?_eq_none_of_find? (h : t.Models m) (hnone : m.find? (sameKey t.hash) k = none) : t.locate? k = none := by
  rcases hloc : t.locate? k with - | loc
  · rfl
  · obtain ⟨b, hb, -⟩ := bucketAt?_of_locate?_eq_some h.layout hloc
    rw [← find?_of_locate? h hloc, hb] at hnone
    simp at hnone

theorem exists_loc_of_find? (h : t.Models m) {p : K × V} (hp : m.find? (sameKey t.hash) k = some p) :
    ∃ loc b, t.locate? k = some loc ∧ t.bucketAt? loc = some b ∧ b.toPair = p := by
  rcases hloc : t.locate? k with - | loc
  · rw [PairMap.find?_eq_none (not_mem_of_models h hloc)] at hp
    simp at hp
  · rw [← find?_of_locate? h hloc] at hp
    obtain ⟨b, hb, hpair⟩ := Option.map_eq_some_iff.mp hp
    exact ⟨loc, b, rfl, hb, hpair⟩

/-- The table after a pair was placed: grown, if the pair was one too many. -/
def settled (t : Table K V) : Table K V := if t.maxSize < t.size then t.grow else t

omit [EquivBEq K] in
theorem insert_of_locate?_eq_none (hnone : t.locate? k = none) (v : V) :
    t.insert k v = (none, (t.addNew (t.spreadHash k) k v).1.settled) := by
  rw [insert, hnone]
  rfl

omit [EquivBEq K] in
theorem insert_of_locate?_eq_some (hloc : t.locate? k = some loc) (v : V) :
    t.insert k v = ((t.bucketAt? loc).map (·.value), t.modifyValueAt loc fun _ => v) := by
  rw [insert, hloc]

theorem keeps_settled (t : Table K V) : t.Keeps t.settled := by
  rw [settled]
  split
  · exact keeps_grow t
  · exact Keeps.refl t

theorem models_settled (h : t.Models m) : t.settled.Models m := by
  rw [settled]
  split
  · exact models_grow h
  · exact h

theorem models_insert (h : t.Models m) (k : K) (v : V) :
    (t.insert k v).1 = (m.find? (sameKey t.hash) k).map Prod.snd ∧
      (t.insert k v).2.Models (m.insert (sameKey t.hash) k v) := by
  rcases hfind : m.find? (sameKey t.hash) k with - | p
  · have hnone := locate?_eq_none_of_find? h hfind
    rw [insert_of_locate?_eq_none hnone]
    exact ⟨rfl, models_settled (models_addNew h hnone v)⟩
  · obtain ⟨loc, b, hloc, hb, rfl⟩ := exists_loc_of_find? h hfind
    rw [insert_of_locate?_eq_some hloc, PairMap.insert_of_any (PairMap.any_of_find? hfind), hb]
    exact ⟨rfl, models_modifyValueAt h hloc _⟩

theorem models_modify (h : t.Models m) (k : K) (f : V → V) :
    (t.modify k f).1 = (m.find? (sameKey t.hash) k).map (fun p => f p.2) ∧
      (t.modify k f).2.Models (m.modify (sameKey t.hash) k f) := by
  rcases hfind : m.find? (sameKey t.hash) k with - | p
  · have hnone := locate?_eq_none_of_find? h hfind
    rw [modify, hnone, PairMap.modify_eq_self (not_mem_of_models h hnone)]
    exact ⟨rfl, h⟩
  · obtain ⟨loc, b, hloc, hb, rfl⟩ := exists_loc_of_find? h hfind
    rw [modify, hloc]
    refine ⟨?_, models_modifyValueAt h hloc f⟩
    change (t.bucketAt? loc).map (fun b => f b.value) = _
    rw [hb]
    rfl

theorem models_removeEntry (h : t.Models m) (k : K) :
    (t.removeEntry k).1 = m.find? (sameKey t.hash) k ∧ (t.removeEntry k).2.Models (m.erase (sameKey t.hash) k) := by
  rcases hfind : m.find? (sameKey t.hash) k with - | p
  · have hnone := locate?_eq_none_of_find? h hfind
    rw [removeEntry, hnone, PairMap.erase_eq_self (not_mem_of_models h hnone)]
    exact ⟨rfl, h⟩
  · obtain ⟨loc, b, hloc, hb, rfl⟩ := exists_loc_of_find? h hfind
    rw [removeEntry, hloc]
    dsimp only
    rw [removeAt?_of_bucketAt? hb]
    exact ⟨rfl, models_dropAt h hloc⟩

theorem models_remove (h : t.Models m) (k : K) :
    (t.remove k).1 = (m.find? (sameKey t.hash) k).map Prod.snd ∧
      (t.remove k).2.Models (m.erase (sameKey t.hash) k) := by
  obtain ⟨hentry, hmodels⟩ := models_removeEntry h k
  exact ⟨congrArg (Option.map Prod.snd) hentry, hmodels⟩

/-- A key that is present is given its own pair, and nothing changes. -/
theorem getOrInsert_of_find? (h : t.Models m) {p : K × V} (hfind : m.find? (sameKey t.hash) k = some p)
    (default : Option V) :
    ∃ loc b, t.getOrInsert k default = (.found loc, t) ∧ t.bucketAt? loc = some b ∧ b.toPair = p := by
  obtain ⟨loc, b, hloc, hb, hpair⟩ := exists_loc_of_find? h hfind
  exact ⟨loc, b, by rw [getOrInsert, hloc], hb, hpair⟩

/-- The table as it is when the default of an absent key is asked for: grown already, if the new pair is one too many. -/
def madeReady (t : Table K V) : Table K V := if t.maxSize < t.size + 1 then t.grow else t

omit [EquivBEq K] in
theorem getOrInsert_of_locate?_eq_none (hnone : t.locate? k = none) (default : Option V) :
    t.getOrInsert k default = match default with
      | none => (.aborted, t.madeReady)
      | some v => (.inserted (t.madeReady.addNew (t.madeReady.spreadHash k) k v).2,
          (t.madeReady.addNew (t.madeReady.spreadHash k) k v).1) := by
  rw [getOrInsert, hnone]
  rfl

theorem keeps_madeReady (t : Table K V) : t.Keeps t.madeReady := by
  rw [madeReady]
  split
  · exact keeps_grow t
  · exact Keeps.refl t

theorem models_madeReady (h : t.Models m) : t.madeReady.Models m := by
  rw [madeReady]
  split
  · exact models_grow h
  · exact h

theorem locate?_madeReady (h : t.LayoutInvariant) (hnone : t.locate? k = none) : t.madeReady.locate? k = none := by
  rw [madeReady]
  split
  · exact locate?_grow_eq_none h hnone
  · exact hnone

theorem getOrInsert_of_find?_eq_none (h : t.Models m) (hfind : m.find? (sameKey t.hash) k = none) (v : V) :
    ∃ loc b u, t.getOrInsert k (some v) = (.inserted loc, u) ∧ u.bucketAt? loc = some b ∧ b.toPair = (k, v) ∧
      u.Models (m.insert (sameKey t.hash) k v) := by
  have hnone := locate?_eq_none_of_find? h hfind
  have hready := models_madeReady h
  rw [← (keeps_madeReady t).hash]
  exact ⟨_, ⟨t.madeReady.spreadHash k, k, v⟩, _, getOrInsert_of_locate?_eq_none hnone (some v),
    bucketAt?_place hready.layout.wellFormed hready.layout.capacity_pos _, rfl,
    models_addNew hready (locate?_madeReady h.layout hnone) v⟩

theorem getOrInsert_aborted (h : t.Models m) (hfind : m.find? (sameKey t.hash) k = none) :
    ∃ u, t.getOrInsert k none = (.aborted, u) ∧ u.Models m :=
  ⟨_, getOrInsert_of_locate?_eq_none (locate?_eq_none_of_find? h hfind) none, models_madeReady h⟩

end Models

/-! ### What operations keep -/

section Keeps

variable (t : Table K V) (k : K)

theorem keeps_modify (f : V → V) : t.Keeps (t.modify k f).2 := by
  rw [modify]
  split
  · exact Keeps.refl t
  · exact keeps_modifyValueAt t _ f

variable [EquivBEq K]

theorem keeps_addNew {t : Table K V} {k : K} (hnone : t.locate? k = none) (v : V) :
    t.Keeps (t.addNew (t.spreadHash k) k v).1 :=
  ⟨rfl, rfl, fun h => layoutInvariant_addNew h hnone v⟩

theorem keeps_insert (v : V) : t.Keeps (t.insert k v).2 := by
  rcases hloc : t.locate? k with - | loc
  · rw [insert_of_locate?_eq_none hloc]
    exact (keeps_addNew hloc v).trans (keeps_settled _)
  · rw [insert_of_locate?_eq_some hloc]
    exact keeps_modifyValueAt t loc _

theorem keeps_extend (pairs : List (K × V)) : t.Keeps (t.extend pairs) := by
  induction pairs generalizing t with
  | nil => exact Keeps.refl t
  | cons p pairs ih => exact (keeps_insert t p.1 p.2).trans (ih (t.insert p.1 p.2).2)

theorem layoutInvariant_extend_build (hash : K → UInt64) (config : Config) (id : Nat) (pairs : List (K × V)) :
    ((build hash config id).extend pairs : Table K V).LayoutInvariant :=
  (keeps_extend _ pairs).layout (layoutInvariant_build hash config id)

theorem keeps_removeEntry : t.Keeps (t.removeEntry k).2 := by
  rw [removeEntry]
  split
  · exact Keeps.refl t
  · exact keeps_removeAt? t _

theorem keeps_remove : t.Keeps (t.remove k).2 := keeps_removeEntry t k

/-- Whether or not the default is given, and also if it aborts after the table has grown. -/
theorem keeps_getOrInsert (default : Option V) : t.Keeps (t.getOrInsert k default).2 := by
  rcases hloc : t.locate? k with - | loc
  · have hready := keeps_madeReady t
    rw [getOrInsert_of_locate?_eq_none hloc]
    cases default with
    | none => exact hready
    | some v =>
      refine ⟨hready.hash, hready.loadFactor, fun h => ?_⟩
      exact layoutInvariant_addNew (hready.layout h) (locate?_madeReady h hloc) v
  · rw [getOrInsert, hloc]
    exact Keeps.refl t

end Keeps

/-! ### Many pairs -/

theorem models_build (hash : K → UInt64) (config : Config) (id : Nat) : (build hash config id : Table K V).Models {} :=
  ⟨layoutInvariant_build hash config id, by rw [toList, buckets_build]; rfl⟩

theorem models_toList {t : Table K V} (h : t.LayoutInvariant) : t.Models ⟨t.toList⟩ := ⟨h, List.Perm.refl _⟩

theorem modify_of_get?_eq_none {t : Table K V} (h : t.LayoutInvariant) {k : K} (hget : t.get? k = none) (f : V → V) :
    t.modify k f = (none, t) := by
  rcases hloc : t.locate? k with - | loc
  · rw [modify, hloc]
  · obtain ⟨b, hb, -⟩ := bucketAt?_of_locate?_eq_some h hloc
    rw [get?, getEntry?, hloc, Option.bind_some, hb] at hget
    simp at hget

theorem toList_modify [EquivBEq K] {t : Table K V} (h : t.LayoutInvariant) (k : K) (f : V → V) :
    (t.modify k f).2.toList = ((⟨t.toList⟩ : PairMap K V).modify (sameKey t.hash) k f).pairs := by
  rcases hloc : t.locate? k with - | loc
  · rw [modify, hloc, PairMap.modify_eq_self (m := ⟨t.toList⟩) ((locate?_eq_none_iff h).mp hloc)]
  · rw [modify, hloc]
    exact toList_modifyValueAt h hloc f

theorem get?_modify [EquivBEq K] {t : Table K V} (h : t.LayoutInvariant) (k : K) (f : V → V) :
    get? (t.modify k f).2 k = (t.get? k).map f := by
  have hmodels := models_toList h
  have hmodels' := (models_modify hmodels k f).2
  rw [get?_eq hmodels, get?_eq hmodels', (keeps_modify t k f).hash]
  rcases hfind : PairMap.find? (sameKey t.hash) ⟨t.toList⟩ k with - | p
  · rw [PairMap.modify_eq_self (not_mem_of_models hmodels (locate?_eq_none_of_find? hmodels hfind)), hfind]
    rfl
  · rw [PairMap.find?_modify_of_find? (sameKey_equivalence t.hash) (distinct_of_models hmodels) hfind]
    rfl

theorem models_extend [EquivBEq K] {t : Table K V} {m : PairMap K V} (h : t.Models m) (pairs : List (K × V)) :
    (t.extend pairs).Models (pairs.foldl (fun m p => m.insert (sameKey t.hash) p.1 p.2) m) := by
  induction pairs generalizing t m with
  | nil => exact h
  | cons p pairs ih =>
    have hrest := ih (models_insert h p.1 p.2).2
    rwa [(keeps_insert t p.1 p.2).hash] at hrest

end Table

end FlatTable

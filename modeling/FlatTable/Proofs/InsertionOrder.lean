import FlatTable.Proofs.Operations
import Mathlib.Data.List.Induction

/-!
# Layout by insertion order

As long as nothing is removed, the slot array of a table is the one that its pairs make when they are placed in an empty array of its length, oldest first. A new pair comes to stand last, an overwrite changes a pair where it stands, and doubling places the pairs slot by slot, which leaves each slot of the larger array with the same pairs in the same order. So the layout is settled by the pairs, the hash function and the capacity, whatever the capacity was before.
-/

namespace FlatTable

universe u v

variable {K : Type u} {V : Type v}

/-! ### Slots filled in order -/

namespace Slot

/-- The slot that buckets make when they are added to an empty one in order. -/
def ofBuckets : List (Bucket K V) → Slot K V
  | [] => empty
  | [b] => pair b
  | bs => chained ⟨(packed bs (bs.length % 2)).toArray⟩

theorem buckets_ofBuckets (bs : List (Bucket K V)) : (ofBuckets bs).buckets = bs := by
  match bs with
  | [] => rfl
  | [b] => rfl
  | first :: second :: bs => exact occupiedPrefix_packed (first :: second :: bs) _

theorem chained_eq_ofBuckets {c : Chain K V} {bs : List (Bucket K V)} (hlength : 2 ≤ bs.length)
    (hcells : c.cells.toList = packed bs (bs.length % 2)) : chained c = ofBuckets bs := by
  match bs with
  | first :: second :: bs => exact congrArg (chained ∘ Chain.mk) (Array.toList_inj.mp hcells)

theorem add_ofBuckets (bs : List (Bucket K V)) (b : Bucket K V) : (ofBuckets bs).add b = ofBuckets (bs ++ [b]) := by
  match bs with
  | [] => rfl
  | [first] =>
    have hfirst : (Chain.ofBucket first).cells.toList = packed [first] 1 := rfl
    have hvacant : (if 1 = 0 then 1 else 1 - 1) = ([first] ++ [b]).length % 2 := by simp
    exact chained_eq_ofBuckets (Nat.le_refl 2) (hvacant ▸ Chain.cells_push hfirst b)
  | first :: second :: bs =>
    refine chained_eq_ofBuckets (by simp) ((Chain.cells_push rfl b).trans (congrArg (packed _) ?_))
    rw [List.length_append, List.length_singleton]
    split <;> omega

theorem modifyValue_ofBuckets {bs : List (Bucket K V)} {loc : Location} {b : Bucket K V}
    (hb : (ofBuckets bs).bucketAt? loc = some b) (f : V → V) :
    (ofBuckets bs).modifyValue f loc = ofBuckets (bs.modify loc.cell (Bucket.mapValue f)) := by
  match bs with
  | [] => cases loc <;> simp [ofBuckets, bucketAt?] at hb
  | [first] => cases loc with
    | primary i => rfl
    | chained i j => simp [ofBuckets, bucketAt?] at hb
  | first :: second :: bs => cases loc with
    | primary i => simp [ofBuckets, bucketAt?] at hb
    | chained i j =>
      refine chained_eq_ofBuckets (by simp) ((Chain.cells_modifyValue rfl j f).trans (congrArg (packed _) ?_))
      rw [List.length_modify]

end Slot

/-! ### Arrays filled in order -/

theorem placeAll_concat (slots : Array (Slot K V)) (bs : List (Bucket K V)) (b : Bucket K V) :
    placeAll slots (bs ++ [b]) = (place (placeAll slots bs) b).1 := by
  rw [placeAll, List.foldl_concat]
  rfl

theorem getElem?_placeAll_emptySlots (capacity : Nat) (bs : List (Bucket K V)) (i : Nat) :
    (placeAll (emptySlots capacity) bs)[i]? =
      if i < capacity then some (Slot.ofBuckets (bs.filter fun b => slotIndex b.hash capacity = i)) else none := by
  induction bs using List.reverseRecOn with
  | nil =>
    change (emptySlots capacity)[i]? = _
    rw [emptySlots, Array.getElem?_replicate]
    rfl
  | append_singleton bs b ih =>
    rw [placeAll_concat, place, Array.getElem?_modify, size_placeAll, size_emptySlots, ih, List.filter_append]
    by_cases hi : slotIndex b.hash capacity = i
    · have hlast : ([b].filter fun b => slotIndex b.hash capacity = i) = [b] := by simp [hi]
      rw [if_pos hi, hlast, ← Slot.add_ofBuckets]
      split <;> rfl
    · have hlast : ([b].filter fun b => slotIndex b.hash capacity = i) = [] := by simp [hi]
      rw [if_neg hi, hlast, List.append_nil]

/-- Lists that agree on each slot fill an array alike. -/
theorem placeAll_emptySlots_congr {capacity : Nat} {bs bs' : List (Bucket K V)}
    (h : ∀ i < capacity, (bs.filter fun b => slotIndex b.hash capacity = i) =
      bs'.filter fun b => slotIndex b.hash capacity = i) :
    placeAll (emptySlots capacity) bs = placeAll (emptySlots capacity) bs' := by
  apply Array.ext_getElem?
  intro i
  rw [getElem?_placeAll_emptySlots, getElem?_placeAll_emptySlots]
  by_cases hi : i < capacity
  · rw [if_pos hi, if_pos hi, h i hi]
  · rw [if_neg hi, if_neg hi]

/-- A condition that only buckets of one slot meet selects from the traversal what it selects from that slot. -/
theorem filter_bucketsOf {slots : Array (Slot K V)} (hplaced : AllPlaced slots) {i : Nat} (hi : i < slots.size)
    {p : Bucket K V → Bool} (hp : ∀ b, p b = true → slotIndex b.hash slots.size = i) :
    (bucketsOf slots).filter p = (bucketsIn slots i).filter p := by
  have hother : ∀ x y s, slots.toList = x ++ s :: y → x.length ≠ i → s.buckets.filter p = [] := by
    intro x y s hsplit hne
    apply List.filter_eq_nil_iff.mpr
    intro b hb hpb
    have hplace := hplaced x.length b (by rw [bucketsIn, getD_of_split hsplit]; exact hb)
    exact hne (hplace.symm.trans (hp b hpb))
  obtain ⟨x, y, hsplit, rfl⟩ := exists_split_of_lt hi
  generalize slots[x.length] = s at hsplit
  have hbefore : (x.flatMap Slot.buckets).filter p = [] := by
    rw [List.filter_flatMap, List.flatMap_eq_nil_iff]
    intro s' hs'
    obtain ⟨x₁, x₂, rfl⟩ := List.append_of_mem hs'
    exact hother x₁ (x₂ ++ s :: y) s' (by rw [hsplit]; simp) (by simp)
  have hafter : (y.flatMap Slot.buckets).filter p = [] := by
    rw [List.filter_flatMap, List.flatMap_eq_nil_iff]
    intro s' hs'
    obtain ⟨y₁, y₂, rfl⟩ := List.append_of_mem hs'
    exact hother (x ++ s :: y₁) y₂ s' (by rw [hsplit]; simp) (by simp)
  rw [bucketsOf_of_split hsplit, List.filter_append, List.filter_append, hbefore, hafter, List.nil_append,
    List.append_nil, bucketsIn, getD_of_split hsplit]

/-! ### Slots of a doubled array -/

/-- The slot of a hash in an array is its slot in the doubled array, less the top bit. -/
theorem slotIndex_double {capacity : Nat} (hpow : ∃ n, capacity = 2 ^ n) (w : UInt32) :
    slotIndex w (2 * capacity) &&& (capacity - 1) = slotIndex w capacity := by
  obtain ⟨n, rfl⟩ := hpow
  rw [← Nat.pow_succ', slotIndex, slotIndex, Nat.and_two_pow_sub_one_eq_mod, Nat.and_two_pow_sub_one_eq_mod,
    Nat.and_two_pow_sub_one_eq_mod]
  exact Nat.mod_mod_of_dvd _ (Nat.pow_dvd_pow 2 (Nat.le_succ n))

/-- What the traversal holds for a slot of the doubled array stands in one slot. -/
theorem filter_bucketsOf_double {slots : Array (Slot K V)} (hplaced : AllPlaced slots)
    (hpow : ∃ n, slots.size = 2 ^ n) (hpos : 0 < slots.size) (j : Nat) :
    ((bucketsOf slots).filter fun b => slotIndex b.hash (2 * slots.size) = j) =
      (bucketsIn slots (j &&& (slots.size - 1))).filter fun b => slotIndex b.hash (2 * slots.size) = j := by
  apply filter_bucketsOf hplaced (and_sub_one_lt hpos j)
  intro b hb
  rw [← slotIndex_double hpow, of_decide_eq_true hb]

/-! ### Pairs of a slot -/

/-- The bucket of a pair. -/
def Bucket.ofPair (hash : K → UInt64) (p : K × V) : Bucket K V := ⟨spread (hash p.1), p.1, p.2⟩

/-- The pairs of a list whose keys select a slot, in the order of the list. -/
def selecting (hash : K → UInt64) (capacity i : Nat) (pairs : List (K × V)) : List (K × V) :=
  pairs.filter fun p => slotIndex (spread (hash p.1)) capacity = i

theorem selecting_modify (hash : K → UInt64) (capacity i : Nat) (same : K → K → Bool) (m : PairMap K V) (k : K)
    (f : V → V) : selecting hash capacity i (m.modify same k f).pairs =
      (PairMap.modify same ⟨selecting hash capacity i m.pairs⟩ k f).pairs := by
  rw [PairMap.modify, PairMap.modify, selecting, List.filter_map]
  congr 1
  apply List.filter_congr
  intro p _
  rw [Function.comp_apply]
  split <;> rfl

theorem filter_map_ofPair (hash : K → UInt64) (capacity i : Nat) (pairs : List (K × V)) :
    ((pairs.map (Bucket.ofPair hash)).filter fun b => slotIndex b.hash capacity = i) =
      (selecting hash capacity i pairs).map (Bucket.ofPair hash) := by
  rw [List.filter_map]
  rfl

theorem map_toPair_map_ofPair (hash : K → UInt64) (pairs : List (K × V)) :
    (pairs.map (Bucket.ofPair hash)).map Bucket.toPair = pairs := by
  rw [List.map_map]
  exact List.map_id pairs

theorem placeAll_congr {hash : K → UInt64} {capacity : Nat} {pairs pairs' : List (K × V)}
    (h : ∀ i < capacity, selecting hash capacity i pairs = selecting hash capacity i pairs') :
    placeAll (emptySlots capacity) (pairs.map (Bucket.ofPair hash)) =
      placeAll (emptySlots capacity) (pairs'.map (Bucket.ofPair hash)) := by
  apply placeAll_emptySlots_congr
  intro i hi
  rw [filter_map_ofPair, filter_map_ofPair, h i hi]

namespace Table

variable [BEq K]

theorem buckets_eq_map_ofPair {t : Table K V} (h : t.LayoutInvariant) :
    t.buckets = t.toList.map (Bucket.ofPair t.hash) := by
  rw [toList, List.map_map]
  refine (List.map_id t.buckets).symm.trans (List.map_congr_left ?_)
  intro b hb
  rw [Function.comp_apply, Bucket.ofPair, Bucket.toPair, ← spreadHash, ← h.hashed b hb]
  rfl

/-- The slot array is that of an association list whose pairs are placed in order. -/
structure InOrder (t : Table K V) (m : PairMap K V) : Prop where
  layout : t.LayoutInvariant
  slots_eq : t.slots = placeAll (emptySlots t.slots.size) (m.pairs.map (Bucket.ofPair t.hash))

section InOrder

variable {t : Table K V} {m : PairMap K V}

theorem InOrder.bucketsIn_eq (h : t.InOrder m) (i : Nat) :
    bucketsIn t.slots i = (selecting t.hash t.slots.size i m.pairs).map (Bucket.ofPair t.hash) := by
  rw [h.slots_eq, bucketsIn_placeAll (allWellFormed_emptySlots _) (by rw [size_emptySlots]; exact h.layout.capacity_pos),
    bucketsIn_emptySlots, size_emptySlots, size_placeAll, size_emptySlots, List.nil_append, filter_map_ofPair]

theorem InOrder.getElem?_slots (h : t.InOrder m) (i : Nat) : t.slots[i]? =
    if i < t.slots.size then
      some (Slot.ofBuckets ((selecting t.hash t.slots.size i m.pairs).map (Bucket.ofPair t.hash)))
    else none := by
  have hslots := congrArg (·[i]?) h.slots_eq
  rwa [getElem?_placeAll_emptySlots, filter_map_ofPair] at hslots

theorem InOrder.models (h : t.InOrder m) : t.Models m := by
  refine ⟨h.layout, ?_⟩
  have hperm := bucketsOf_placeAll_perm (allWellFormed_emptySlots (K := K) (V := V) t.slots.size)
    (by rw [size_emptySlots]; exact h.layout.capacity_pos) (m.pairs.map (Bucket.ofPair t.hash))
  rw [← h.slots_eq, bucketsOf_emptySlots, List.append_nil] at hperm
  have hpairs := hperm.map Bucket.toPair
  rwa [map_toPair_map_ofPair] at hpairs

/-- Through an array that is at least as fine, the traversal shows the same pairs in the same order. -/
theorem InOrder.selecting_toList (h : t.InOrder m) {capacity i : Nat} (coarse : Nat → Nat)
    (hcoarse : ∀ w, slotIndex w t.slots.size = coarse (slotIndex w capacity)) (hi : coarse i < t.slots.size) :
    selecting t.hash capacity i t.toList = selecting t.hash capacity i m.pairs := by
  have honce : selecting t.hash capacity i (selecting t.hash t.slots.size (coarse i) m.pairs) =
      selecting t.hash capacity i m.pairs := by
    rw [selecting, selecting, List.filter_filter]
    apply List.filter_congr
    intro p _
    rw [hcoarse]
    by_cases hp : slotIndex (spread (t.hash p.1)) capacity = i <;> simp [hp]
  have hfilter := filter_bucketsOf h.layout.placed hi (p := fun b => slotIndex b.hash capacity = i) fun b hb => by
    rw [hcoarse, of_decide_eq_true hb]
  have hbuckets : bucketsOf t.slots = t.toList.map (Bucket.ofPair t.hash) := buckets_eq_map_ofPair h.layout
  rw [hbuckets, filter_map_ofPair, h.bucketsIn_eq, filter_map_ofPair, honce] at hfilter
  have hpairs := congrArg (List.map Bucket.toPair) hfilter
  rwa [map_toPair_map_ofPair, map_toPair_map_ofPair] at hpairs

/-- A table filled in some order is filled in the order of its traversal, too. -/
theorem InOrder.toList (h : t.InOrder m) : t.InOrder ⟨t.toList⟩ :=
  ⟨h.layout, h.slots_eq.trans (placeAll_congr fun _ hi => (h.selecting_toList (fun i => i) (fun _ => rfl) hi).symm)⟩

/-- The layout is settled by the pairs, the hash function and the capacity. -/
theorem InOrder.slots_eq_slots {u : Table K V} (ht : t.InOrder m) (hu : u.InOrder m) (hhash : u.hash = t.hash)
    (hcapacity : u.capacity = t.capacity) : u.slots = t.slots := by
  have hsize : u.slots.size = t.slots.size := hcapacity
  rw [hu.slots_eq, ht.slots_eq, hhash, hsize]

/-! ### Operations that keep the order -/

theorem inOrder_build (hash : K → UInt64) (config : Config) (id : Nat) :
    (build hash config id : Table K V).InOrder {} where
  layout := layoutInvariant_build hash config id
  slots_eq := congrArg emptySlots (size_emptySlots config.slotCapacity).symm

section Equivalence

variable [EquivBEq K] {k : K} {loc : Location}

theorem inOrder_grow (h : t.InOrder m) : t.grow.InOrder m := by
  refine ⟨(keeps_grow t).layout h.layout, ?_⟩
  rw [hash_grow]
  rcases Nat.lt_or_ge t.slots.size maxCapacity with hsmall | hlarge
  · have hcoarse : ∀ w, slotIndex w t.slots.size = slotIndex w (2 * t.slots.size) &&& (t.slots.size - 1) :=
      fun w => (slotIndex_double h.layout.capacity_pow w).symm
    rw [slots_grow hsmall, size_placeAll, size_emptySlots, buckets_eq_map_ofPair h.layout]
    exact placeAll_congr fun i _ =>
      h.selecting_toList (· &&& (t.slots.size - 1)) hcoarse (and_sub_one_lt h.layout.capacity_pos i)
  · rw [slots_grow_saturated hlarge]
    exact h.slots_eq

theorem inOrder_addNew (h : t.InOrder m) (hnone : t.locate? k = none) (v : V) :
    (t.addNew (t.spreadHash k) k v).1.InOrder (m.insert (sameKey t.hash) k v) := by
  refine ⟨layoutInvariant_addNew h.layout hnone v, ?_⟩
  rw [PairMap.insert_of_not_any (not_mem_of_models h.models hnone)]
  change (place t.slots _).1 = placeAll (emptySlots (place t.slots _).1.size) _
  rw [size_place, List.map_append, List.map_singleton, placeAll_concat]
  exact congrArg (fun slots => (place slots _).1) h.slots_eq

/-- In the slot of a key that is present, changing its value changes the one pair of that key. -/
theorem modifyValue_selecting (h : t.InOrder m) (hloc : t.locate? k = some loc) {i : Nat} (hslot : loc.slot = i)
    (hi : i < t.slots.size) (f : V → V) :
    (Slot.ofBuckets ((selecting t.hash t.slots.size i m.pairs).map (Bucket.ofPair t.hash))).modifyValue f loc =
      Slot.ofBuckets ((selecting t.hash t.slots.size i (m.modify (sameKey t.hash) k f).pairs).map
        (Bucket.ofPair t.hash)) := by
  obtain ⟨b, hb, hk⟩ := bucketAt?_of_locate?_eq_some h.layout hloc
  have hs := h.getElem?_slots i
  rw [if_pos hi] at hs
  have hdistinct : PairMap.Distinct (sameKey t.hash) (selecting t.hash t.slots.size i m.pairs) :=
    (distinct_of_models h.models).sublist List.filter_sublist
  rw [selecting_modify]
  generalize selecting t.hash t.slots.size i m.pairs = pairs at hs hdistinct ⊢
  have hat : (Slot.ofBuckets (pairs.map (Bucket.ofPair t.hash))).bucketAt? loc = some b := by
    rwa [bucketAt?, FlatTable.bucketAt?, hslot, hs] at hb
  have hcell := Slot.getElem?_of_bucketAt? (wellFormed_of_getElem? h.layout hs) hat
  rw [Slot.buckets_ofBuckets, List.getElem?_map] at hcell
  obtain ⟨p, hp, rfl⟩ := Option.map_eq_some_iff.mp hcell
  obtain ⟨x, y, rfl, hx⟩ := exists_split_of_getElem? hp
  rw [Slot.modifyValue_ofBuckets hat, PairMap.modify_of_split (sameKey_equivalence t.hash) hdistinct hk f,
    List.map_append, List.map_cons, ← hx, ← List.length_map (Bucket.ofPair t.hash), modify_append_cons, List.map_append]
  rfl

theorem inOrder_modifyValueAt (h : t.InOrder m) (hloc : t.locate? k = some loc) (f : V → V) :
    (t.modifyValueAt loc f).InOrder (m.modify (sameKey t.hash) k f) := by
  refine ⟨(keeps_modifyValueAt t loc f).layout h.layout, ?_⟩
  change t.slots.modify loc.slot (Slot.modifyValue f loc) =
    placeAll (emptySlots (t.slots.modify loc.slot (Slot.modifyValue f loc)).size)
      ((m.modify (sameKey t.hash) k f).pairs.map (Bucket.ofPair t.hash))
  apply Array.ext_getElem?
  intro i
  rw [Array.size_modify, getElem?_placeAll_emptySlots, filter_map_ofPair, Array.getElem?_modify, h.getElem?_slots]
  by_cases hi : i < t.slots.size
  · rw [if_pos hi, if_pos hi]
    by_cases hslot : loc.slot = i
    · rw [if_pos hslot, Option.map_some, modifyValue_selecting h hloc hslot hi]
    · -- A pair of the key would select the key's own slot.
      have hothers : ∀ p ∈ selecting t.hash t.slots.size i m.pairs, sameKey t.hash p.1 k = false := by
        intro p hp
        rw [Bool.eq_false_iff]
        intro hpk
        apply hslot
        rw [slot_of_locate? h.layout hloc, spreadHash, ← spread_eq_of_sameKey hpk]
        exact of_decide_eq_true (List.mem_filter.mp hp).2
      rw [if_neg hslot, selecting_modify,
        PairMap.modify_eq_self (m := ⟨selecting t.hash t.slots.size i m.pairs⟩) hothers]
  · rw [if_neg hi, if_neg hi]
    split <;> rfl

theorem inOrder_settled (h : t.InOrder m) : t.settled.InOrder m := by
  rw [settled]
  split
  · exact inOrder_grow h
  · exact h

theorem inOrder_madeReady (h : t.InOrder m) : t.madeReady.InOrder m := by
  rw [madeReady]
  split
  · exact inOrder_grow h
  · exact h

theorem inOrder_insert (h : t.InOrder m) (k : K) (v : V) :
    (t.insert k v).2.InOrder (m.insert (sameKey t.hash) k v) := by
  rcases hfind : m.find? (sameKey t.hash) k with - | p
  · have hnone := locate?_eq_none_of_find? h.models hfind
    rw [insert_of_locate?_eq_none hnone]
    exact inOrder_settled (inOrder_addNew h hnone v)
  · obtain ⟨loc, b, hloc, -, -⟩ := exists_loc_of_find? h.models hfind
    rw [insert_of_locate?_eq_some hloc, PairMap.insert_of_any (PairMap.any_of_find? hfind)]
    exact inOrder_modifyValueAt h hloc _

theorem inOrder_modify (h : t.InOrder m) (k : K) (f : V → V) :
    (t.modify k f).2.InOrder (m.modify (sameKey t.hash) k f) := by
  rcases hloc : t.locate? k with - | loc
  · rw [modify, hloc, PairMap.modify_eq_self (not_mem_of_models h.models hloc)]
    exact h
  · rw [modify, hloc]
    exact inOrder_modifyValueAt h hloc f

theorem inOrder_extend (h : t.InOrder m) (pairs : List (K × V)) :
    (t.extend pairs).InOrder (pairs.foldl (fun m p => m.insert (sameKey t.hash) p.1 p.2) m) := by
  induction pairs generalizing t m with
  | nil => exact h
  | cons p pairs ih =>
    have hrest := ih (inOrder_insert h p.1 p.2)
    rwa [(keeps_insert t p.1 p.2).hash] at hrest

end Equivalence

end InOrder

end Table

end FlatTable

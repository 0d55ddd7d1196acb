import FlatTable.Proofs.InsertionOrder

/-!
# Doubling

The buckets of a slot in the doubled array all come from one slot of the old array, since the slot of a hash there is its slot in the doubled array less the top bit. Placed in traversal order, they keep the order in which they stood, so doubling splits each slot in two and mixes no slots; and a bucket that is added last stays last, whether it is placed before the array is doubled or after.
-/

namespace FlatTable

universe u v

variable {K : Type u} {V : Type v}

namespace Table

theorem grow_of_lt {t : Table K V} (hsmall : t.slots.size < maxCapacity) :
    t.grow = { t with
      slots := placeAll (emptySlots (2 * t.slots.size)) t.buckets
      maxSize := t.loadFactor.maxSize (2 * t.slots.size) } := by
  have hslots := slots_grow hsmall
  rw [grow, if_neg (Nat.not_le.mpr hsmall)] at hslots ⊢
  exact congrArg (fun slots => { t with slots := slots, maxSize := t.loadFactor.maxSize (2 * t.slots.size) }) hslots

theorem grow_of_le {t : Table K V} (hlarge : maxCapacity ≤ t.slots.size) :
    t.grow = { t with maxSize := wordLimit - 1 } := by
  rw [grow, if_pos hlarge]

variable [BEq K] {t u : Table K V}

/-! ### The split of a slot -/

theorem bucketsIn_grow (h : t.LayoutInvariant) (hsmall : t.slots.size < maxCapacity) (j : Nat) :
    bucketsIn t.grow.slots j =
      (bucketsIn t.slots (j &&& (t.slots.size - 1))).filter fun b => slotIndex b.hash (2 * t.slots.size) = j := by
  have hpos : 0 < 2 * t.slots.size := Nat.mul_pos Nat.two_pos h.capacity_pos
  rw [slots_grow hsmall, bucketsIn_placeAll (allWellFormed_emptySlots _) (by rwa [size_emptySlots]),
    bucketsIn_emptySlots, List.nil_append, size_emptySlots]
  exact filter_bucketsOf_double h.placed h.capacity_pow h.capacity_pos j

/-- A table and the one that its doubling makes. -/
structure SplitInto (t u : Table K V) : Prop where
  capacity_eq : u.capacity = 2 * t.capacity
  /-- Each new slot holds, in their order, the buckets of one old slot whose hashes select it. -/
  bucketsIn_eq : ∀ j < 2 * t.capacity, bucketsIn u.slots j =
    (bucketsIn t.slots (j &&& (t.capacity - 1))).filter fun b => b.hash.toNat &&& (2 * t.capacity - 1) = j
  buckets_perm : u.buckets.Perm t.buckets
  getEntry?_eq : ∀ k, u.getEntry? k = t.getEntry? k
  contains_eq : ∀ k, u.contains k = t.contains k
  size_eq : u.size = t.size
  maxSize_eq : u.maxSize = t.loadFactor.maxSize (2 * t.capacity)
  layout : u.LayoutInvariant
  /-- The hash function, the load factor, the identity and the generation stay. -/
  frame : u.hash = t.hash ∧ u.loadFactor = t.loadFactor ∧ u.id = t.id ∧ u.generation = t.generation

section Lookups

variable [EquivBEq K]

/-- Tables of the same pairs answer every lookup alike, wherever the pairs stand. -/
theorem lookups_eq_of_models {m : PairMap K V} (ht : t.Models m) (hu : u.Models m) (hhash : u.hash = t.hash) (k : K) :
    u.getEntry? k = t.getEntry? k ∧ u.contains k = t.contains k := by
  rw [getEntry?_eq ht, getEntry?_eq hu, contains_eq ht, contains_eq hu, hhash]
  exact ⟨rfl, rfl⟩

/-- Below the largest capacity, growing splits every slot in two and keeps the order of its buckets. -/
theorem grow_splits_slots (h : t.LayoutInvariant) (hsmall : t.capacity < maxCapacity) : t.SplitInto t.grow := by
  have hmodels := models_toList h
  have hlookups := lookups_eq_of_models hmodels (models_grow hmodels) (hash_grow t)
  refine ⟨capacity_grow hsmall, fun j _ => bucketsIn_grow h hsmall j, buckets_grow_perm h.capacity_pos,
    fun k => (hlookups k).1, fun k => (hlookups k).2, size_grow t, ?_, (keeps_grow t).layout h, ?_⟩
  · rw [grow_of_lt hsmall]
    rfl
  · rw [grow_of_lt hsmall]
    exact ⟨rfl, rfl, rfl, rfl⟩

end Lookups

/-- Three keys share a slot of eight; of sixteen slots, the second takes one of its own. -/
theorem grow_splits_slots_apart : ∃ t : Table Nat Nat,
    t = (build UInt64.ofNat .standard 0).extend [(1, 10), (9, 20), (16, 30)] ∧
      t.LayoutInvariant ∧ t.capacity < maxCapacity ∧ t.SplitInto t.grow ∧
      (bucketsIn t.slots 1).map (·.key) = [1, 9, 16] ∧ (bucketsIn t.grow.slots 1).map (·.key) = [1, 16] ∧
      (bucketsIn t.grow.slots 9).map (·.key) = [9] := by
  have hlayout := layoutInvariant_extend_build (V := Nat) UInt64.ofNat .standard 0 [(1, 10), (9, 20), (16, 30)]
  have hsmall : ((build UInt64.ofNat .standard 0).extend [(1, 10), (9, 20), (16, 30)] : Table Nat Nat).capacity <
    maxCapacity := by decide +kernel
  exact ⟨_, rfl, hlayout, hsmall, grow_splits_slots hlayout hsmall, by decide +kernel, by decide +kernel,
    by decide +kernel⟩

/-! ### Placing before and after -/

omit [BEq K] in
theorem placeAll_place_double {slots : Array (Slot K V)} (hwf : AllWellFormed slots) (hplaced : AllPlaced slots)
    (hpow : ∃ n, slots.size = 2 ^ n) (hpos : 0 < slots.size) (b : Bucket K V) :
    placeAll (emptySlots (2 * slots.size)) (bucketsOf (place slots b).1) =
      (place (placeAll (emptySlots (2 * slots.size)) (bucketsOf slots)) b).1 := by
  have hsize : (place slots b).1.size = slots.size := size_place slots b
  rw [← placeAll_concat]
  apply placeAll_emptySlots_congr
  intro j _
  have hnew := filter_bucketsOf_double (allPlaced_place hwf hpos hplaced b) (by rwa [hsize]) (by rwa [hsize]) j
  rw [hsize] at hnew
  rw [hnew, bucketsIn_place hwf hpos, List.filter_append, List.filter_append,
    filter_bucketsOf_double hplaced hpow hpos]
  congr 1
  by_cases hj : slotIndex b.hash (2 * slots.size) = j
  · rw [if_pos (by rw [← slotIndex_double hpow, hj])]
  · have hnone : ([b].filter fun b => slotIndex b.hash (2 * slots.size) = j) = [] := by simp [hj]
    rw [hnone]
    split
    · exact hnone
    · rfl

/-- A table may grow before or after a new pair is placed. -/
theorem grow_addNew (h : t.LayoutInvariant) (hash : UInt32) (k : K) (v : V) :
    (t.addNew hash k v).1.grow = (t.grow.addNew hash k v).1 := by
  have hsize : (t.addNew hash k v).1.slots.size = t.slots.size := size_place t.slots _
  rcases Nat.lt_or_ge t.slots.size maxCapacity with hsmall | hlarge
  · have hslots := placeAll_place_double h.wellFormed h.placed h.capacity_pow h.capacity_pos ⟨hash, k, v⟩
    rw [grow_of_lt hsmall, grow_of_lt (by rwa [hsize]), hsize]
    exact congrArg (fun slots => { t with
      slots := slots
      size := t.size + 1
      maxSize := t.loadFactor.maxSize (2 * t.slots.size) }) hslots
  · rw [grow_of_le hlarge, grow_of_le (by rwa [hsize])]
    rfl

end Table

end FlatTable

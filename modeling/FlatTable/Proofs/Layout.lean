import FlatTable.Proofs.SlotArray
import Mathlib.Algebra.Group.Nat.Defs

/-!
# The layout invariant

What a table's slot array, count and threshold satisfy between any two operations. `Table.Keeps` says of an operation that it carries the invariant along and leaves the hash function and the load factor alone; every operation that changes a table is a composition of growing, adding an absent key, changing a value and taking a bucket out, and each of these keeps it.
-/

namespace FlatTable

universe u v

variable {K : Type u} {V : Type v}

namespace Table

/-! ### The traversal after a change -/

theorem buckets_build (hash : K → UInt64) (config : Config) (id : Nat) :
    (build hash config id : Table K V).buckets = [] :=
  bucketsOf_emptySlots config.slotCapacity

theorem buckets_clear (t : Table K V) : t.clear.buckets = [] := bucketsOf_emptySlots t.slots.size

theorem toList_of_slots {t u : Table K V} (h : u.slots = t.slots) : u.toList = t.toList := by
  rw [toList, toList, buckets, buckets, h]

theorem slots_grow {t : Table K V} (hsmall : t.slots.size < maxCapacity) :
    t.grow.slots = placeAll (emptySlots (2 * t.slots.size)) t.buckets := by
  rw [grow, if_neg (Nat.not_le.mpr hsmall), buckets, bucketsOf, placeAll, List.foldl_flatMap, Array.foldl_toList]

theorem slots_grow_saturated {t : Table K V} (hlarge : maxCapacity ≤ t.slots.size) : t.grow.slots = t.slots := by
  rw [grow, if_pos hlarge]

theorem buckets_grow_perm {t : Table K V} (hpos : 0 < t.slots.size) : t.grow.buckets.Perm t.buckets := by
  rcases Nat.lt_or_ge t.slots.size maxCapacity with hsmall | hlarge
  · rw [buckets, slots_grow hsmall]
    have hplaced := bucketsOf_placeAll_perm (allWellFormed_emptySlots (K := K) (V := V) (2 * t.slots.size))
      (by rw [size_emptySlots]; omega) t.buckets
    rwa [bucketsOf_emptySlots, List.append_nil] at hplaced
  · rw [buckets, slots_grow_saturated hlarge]
    rfl

@[simp] theorem size_grow (t : Table K V) : t.grow.size = t.size := by
  rw [grow]
  split <;> rfl

@[simp] theorem hash_grow (t : Table K V) : t.grow.hash = t.hash := by
  rw [grow]
  split <;> rfl

@[simp] theorem loadFactor_grow (t : Table K V) : t.grow.loadFactor = t.loadFactor := by
  rw [grow]
  split <;> rfl

theorem capacity_grow {t : Table K V} (hsmall : t.slots.size < maxCapacity) : t.grow.capacity = 2 * t.capacity := by
  rw [capacity, slots_grow hsmall, size_placeAll, size_emptySlots, capacity]

theorem buckets_addNew_perm {t : Table K V} (hwf : AllWellFormed t.slots) (hpos : 0 < t.slots.size) (hash : UInt32)
    (k : K) (v : V) : (t.addNew hash k v).1.buckets.Perm (⟨hash, k, v⟩ :: t.buckets) :=
  bucketsOf_place_perm hwf hpos ⟨hash, k, v⟩

theorem modifyValueAt_eq_self {t : Table K V} (hwf : AllWellFormed t.slots) {loc : Location}
    (hnone : t.bucketAt? loc = none) (f : V → V) : t.modifyValueAt loc f = t := by
  have hslots : t.slots.modify loc.slot (Slot.modifyValue f loc) = t.slots := by
    apply Array.toList_inj.mp
    by_cases hlt : loc.slot < t.slots.size
    · obtain ⟨x, y, hsplit, hx⟩ := exists_split_of_lt hlt
      generalize t.slots[loc.slot] = s at hsplit
      have hs : s.bucketAt? loc = none := by rwa [← bucketAt?_of_split hsplit hx]
      rw [← hx, toList_modify_of_split hsplit, hsplit, Slot.modifyValue_eq_self (hwf s (by rw [hsplit]; simp)) hs]
    · rw [Array.toList_modify, List.modify_eq_self (by simpa using hlt)]
  rw [modifyValueAt, hslots]

theorem buckets_modifyValueAt {t : Table K V} (hwf : AllWellFormed t.slots) {loc : Location} {b : Bucket K V}
    (hb : t.bucketAt? loc = some b) : ∃ before after, t.buckets = before ++ b :: after ∧
      ∀ f, (t.modifyValueAt loc f).buckets = before ++ b.mapValue f :: after := by
  obtain ⟨before, after, hsplit, hchanged, -⟩ := exists_traversal_split hwf hb
  exact ⟨before, after, hsplit, hchanged⟩

theorem buckets_dropAt_perm {t : Table K V} (hwf : AllWellFormed t.slots) {loc : Location} {b : Bucket K V}
    (hb : t.bucketAt? loc = some b) : (b :: (t.dropAt loc).buckets).Perm t.buckets := by
  obtain ⟨before, after, hsplit, -, hdropped⟩ := exists_traversal_split hwf hb
  have hold : t.buckets = before ++ b :: after := hsplit
  rw [hold]
  exact (hdropped.cons b).trans List.perm_middle.symm

theorem removeAt?_of_bucketAt? {t : Table K V} {loc : Location} {b : Bucket K V} (hb : t.bucketAt? loc = some b) :
    t.removeAt? loc = (some b, t.dropAt loc) := by
  rw [removeAt?, hb]

variable [BEq K]

/-- The invariant that all operations on tables keep. -/
structure LayoutInvariant (t : Table K V) : Prop where
  capacity_pow : ∃ n, t.capacity = 2 ^ n
  /-- The cached hashes are those of the keys. -/
  hashed : ∀ b ∈ t.buckets, b.hash = t.spreadHash b.key
  placed : AllPlaced t.slots
  wellFormed : AllWellFormed t.slots
  distinct : t.buckets.Pairwise fun a b => ¬(a.hash = b.hash ∧ a.key == b.key)
  size_eq : t.size = t.buckets.length
  /-- The threshold is the load factor's, until the table has met the largest capacity and given up growing. -/
  maxSize_eq : t.maxSize = t.loadFactor.maxSize t.capacity ∨ maxCapacity ≤ t.capacity ∧ t.maxSize = wordLimit - 1

theorem LayoutInvariant.capacity_pos {t : Table K V} (h : t.LayoutInvariant) : 0 < t.slots.size := by
  obtain ⟨n, hn⟩ := h.capacity_pow
  rw [capacity] at hn
  rw [hn]
  exact Nat.two_pow_pos n

theorem LayoutInvariant.length_toList {t : Table K V} (h : t.LayoutInvariant) : t.toList.length = t.size := by
  rw [toList, List.length_map, h.size_eq]

theorem layoutInvariant_build (hash : K → UInt64) (config : Config) (id : Nat) :
    (build hash config id : Table K V).LayoutInvariant where
  capacity_pow := by
    obtain ⟨n, hn⟩ := Nat.isPowerOfTwo_nextPowerOfTwo (max config.initialCapacity 1)
    exact ⟨n, (size_emptySlots config.slotCapacity).trans hn⟩
  hashed := by simp [buckets_build]
  placed := allPlaced_emptySlots config.slotCapacity
  wellFormed := allWellFormed_emptySlots config.slotCapacity
  distinct := by simp [buckets_build]
  size_eq := by rw [buckets_build]; rfl
  maxSize_eq := Or.inl (congrArg config.loadFactor.maxSize (size_emptySlots config.slotCapacity).symm)

/-! ### Looking up -/

/-- A key that is absent where it is looked for is absent everywhere. -/
theorem locate?_eq_none {t : Table K V} (h : t.LayoutInvariant) {k : K} :
    t.locate? k = none ↔ ∀ b ∈ t.buckets, b.isFor (t.spreadHash k) k = false := by
  have hi : slotIndex (t.spreadHash k) t.slots.size < t.slots.size := slotIndex_lt h.capacity_pos
  have hslot : t.locate? k = (t.slots.getD (slotIndex (t.spreadHash k) t.slots.size) .empty).locate?
      (slotIndex (t.spreadHash k) t.slots.size) (t.spreadHash k) k := by
    rw [locate?, Array.getD_eq_getD_getElem?, Array.getElem?_eq_getElem hi]
    rfl
  rw [hslot, Slot.locate?_eq_none]
  constructor
  · intro hnone b hb
    obtain ⟨i, hbi⟩ := mem_bucketsOf.mp hb
    -- A bucket with the key's hash stands in the slot that was searched, and any other is not for the key.
    by_cases hhash : b.hash = t.spreadHash k
    · have hplace := h.placed i b hbi
      rw [hhash] at hplace
      exact hnone b (by rw [hplace]; exact hbi)
    · simp [Bucket.isFor, hhash]
  · intro hnone b hb
    exact hnone b (mem_bucketsOf.mpr ⟨_, hb⟩)

theorem wellFormed_of_getElem? {t : Table K V} (h : t.LayoutInvariant) {i : Nat} {s : Slot K V}
    (hs : t.slots[i]? = some s) : s.WellFormed :=
  h.wellFormed.of_getElem? hs

theorem slot_of_locate? {t : Table K V} (h : t.LayoutInvariant) {k : K} {loc : Location}
    (hloc : t.locate? k = some loc) : loc.slot = slotIndex (t.spreadHash k) t.slots.size := by
  obtain ⟨s, hs, hin⟩ := Option.bind_eq_some_iff.mp hloc
  exact (Slot.bucketAt?_of_locate? (wellFormed_of_getElem? h hs) hin).1

theorem bucketAt?_of_locate? {t : Table K V} (h : t.LayoutInvariant) {k : K} {loc : Location}
    (hloc : t.locate? k = some loc) : ∃ b, t.bucketAt? loc = some b ∧ b.isFor (t.spreadHash k) k = true := by
  obtain ⟨s, hs, hin⟩ := Option.bind_eq_some_iff.mp hloc
  obtain ⟨hslot, b, hb, hfor⟩ := Slot.bucketAt?_of_locate? (wellFormed_of_getElem? h hs) hin
  refine ⟨b, ?_, hfor⟩
  rw [bucketAt?, FlatTable.bucketAt?, hslot, hs]
  exact hb

/-! ### What keeps the invariant -/

/-- An operation leads from a table to another with the same hash function and load factor, and keeps the invariant. -/
structure Keeps (t u : Table K V) : Prop where
  hash : u.hash = t.hash
  loadFactor : u.loadFactor = t.loadFactor
  layout : t.LayoutInvariant → u.LayoutInvariant

theorem Keeps.refl (t : Table K V) : t.Keeps t := ⟨rfl, rfl, fun h => h⟩

theorem Keeps.trans {t u w : Table K V} (h : t.Keeps u) (h' : u.Keeps w) : t.Keeps w :=
  ⟨h'.hash.trans h.hash, h'.loadFactor.trans h.loadFactor, fun ht => h'.layout (h.layout ht)⟩

theorem keeps_clone (t : Table K V) (id : Nat) : t.Keeps (t.clone id) :=
  ⟨rfl, rfl, fun h => ⟨h.1, h.2, h.3, h.4, h.5, h.6, h.7⟩⟩

theorem keeps_clear (t : Table K V) : t.Keeps t.clear where
  hash := rfl
  loadFactor := rfl
  layout h := by
    have hsize : t.clear.capacity = t.capacity := size_emptySlots t.slots.size
    refine ⟨by rw [hsize]; exact h.capacity_pow, by simp [buckets_clear], allPlaced_emptySlots _,
      allWellFormed_emptySlots _, by simp [buckets_clear], by rw [buckets_clear]; rfl, ?_⟩
    rw [hsize]
    exact h.maxSize_eq

theorem keeps_modifyValueAt (t : Table K V) (loc : Location) (f : V → V) : t.Keeps (t.modifyValueAt loc f) where
  hash := rfl
  loadFactor := rfl
  layout h := by
    rcases hb : t.bucketAt? loc with - | b
    · rwa [modifyValueAt_eq_self h.wellFormed hb]
    · obtain ⟨before, after, hold, hchanged⟩ := buckets_modifyValueAt h.wellFormed hb
      have hsize : (t.modifyValueAt loc f).capacity = t.capacity := Array.size_modify
      have hhashed := h.hashed
      have hdistinct := h.distinct
      rw [hold] at hhashed hdistinct
      refine ⟨?_, ?_, allPlaced_modifyValue h.wellFormed h.placed hb f,
        h.wellFormed.modify (Slot.wellFormed_modifyValue (h.wellFormed.getD _) loc f), ?_, ?_, ?_⟩
      · rw [hsize]
        exact h.capacity_pow
      · intro b' hb'
        rw [hchanged, List.mem_append, List.mem_cons] at hb'
        rcases hb' with hb' | rfl | hb'
        · exact hhashed b' (by simp [hb'])
        · exact hhashed b (by simp)
        · exact hhashed b' (by simp [hb'])
      · rw [hchanged]
        simpa [List.pairwise_append] using hdistinct
      · change t.size = _
        rw [h.size_eq, hchanged, hold]
        simp
      · rw [hsize]
        exact h.maxSize_eq

section Equivalence

variable [PartialEquivBEq K]

theorem distinct_of_perm {l r : List (Bucket K V)} (h : l.Perm r)
    (hl : l.Pairwise fun a b => ¬(a.hash = b.hash ∧ a.key == b.key)) :
    r.Pairwise fun a b => ¬(a.hash = b.hash ∧ a.key == b.key) := by
  refine (h.pairwise_iff ?_).mp hl
  rintro a b hab ⟨hhash, hkey⟩
  exact hab ⟨hhash.symm, BEq.symm hkey⟩

theorem keeps_grow (t : Table K V) : t.Keeps t.grow where
  hash := hash_grow t
  loadFactor := loadFactor_grow t
  layout h := by
    rcases Nat.lt_or_ge t.slots.size maxCapacity with hsmall | hlarge
    · have hperm := buckets_grow_perm h.capacity_pos
      have hpos : 0 < 2 * t.slots.size := by
        have := h.capacity_pos
        omega
      refine ⟨?_, ?_, ?_, ?_, distinct_of_perm hperm.symm h.distinct, ?_, Or.inl ?_⟩
      · obtain ⟨n, hn⟩ := h.capacity_pow
        exact ⟨n + 1, by rw [capacity_grow hsmall, hn, Nat.pow_succ, Nat.mul_comm]⟩
      · intro b hb
        rw [spreadHash, hash_grow]
        exact h.hashed b (hperm.mem_iff.mp hb)
      · rw [slots_grow hsmall]
        exact allPlaced_placeAll_emptySlots hpos t.buckets
      · rw [slots_grow hsmall]
        exact allWellFormed_placeAll (allWellFormed_emptySlots _) t.buckets
      · rw [size_grow, h.size_eq, hperm.length_eq]
      · rw [capacity_grow hsmall, loadFactor_grow, grow, if_neg (Nat.not_le.mpr hsmall)]
        rfl
    · rw [grow, if_pos hlarge]
      exact ⟨h.1, h.2, h.3, h.4, h.5, h.6, Or.inr ⟨hlarge, rfl⟩⟩

theorem layoutInvariant_addNew {t : Table K V} (h : t.LayoutInvariant) {k : K} (habsent : t.locate? k = none)
    (v : V) : (t.addNew (t.spreadHash k) k v).1.LayoutInvariant := by
  have hperm := buckets_addNew_perm h.wellFormed h.capacity_pos (t.spreadHash k) k v
  have hsize : (t.addNew (t.spreadHash k) k v).1.capacity = t.capacity := size_place t.slots _
  refine ⟨?_, ?_, allPlaced_place h.wellFormed h.capacity_pos h.placed _, allWellFormed_place h.wellFormed _,
    ?_, ?_, ?_⟩
  · rw [hsize]
    exact h.capacity_pow
  · intro b hb
    rcases List.mem_cons.mp (hperm.mem_iff.mp hb) with rfl | hb
    · rfl
    · exact h.hashed b hb
  · refine distinct_of_perm hperm.symm (List.pairwise_cons.mpr ⟨?_, h.distinct⟩)
    rintro b hb ⟨hhash, hkey⟩
    have hnot := (locate?_eq_none h).mp habsent b hb
    rw [Bucket.isFor, ← hhash, BEq.symm hkey] at hnot
    simp at hnot
  · rw [hperm.length_eq, List.length_cons, ← h.size_eq]
    rfl
  · rw [hsize]
    exact h.maxSize_eq

theorem layoutInvariant_dropAt {t : Table K V} (h : t.LayoutInvariant) {loc : Location} {b : Bucket K V}
    (hb : t.bucketAt? loc = some b) : (t.dropAt loc).LayoutInvariant := by
  have hperm := buckets_dropAt_perm h.wellFormed hb
  have hsize : (t.dropAt loc).capacity = t.capacity := Array.size_modify
  refine ⟨?_, ?_, allPlaced_remove h.wellFormed h.placed hb,
    h.wellFormed.modify (Slot.wellFormed_remove (h.wellFormed.getD _) (getD_bucketAt? hb)), ?_, ?_, ?_⟩
  · rw [hsize]
    exact h.capacity_pow
  · intro b' hb'
    exact h.hashed b' (hperm.mem_iff.mp (List.mem_cons_of_mem b hb'))
  · exact (List.pairwise_cons.mp (distinct_of_perm hperm.symm h.distinct)).2
  · have hlen := hperm.length_eq
    rw [List.length_cons, ← h.size_eq] at hlen
    change t.size - 1 = _
    omega
  · rw [hsize]
    exact h.maxSize_eq

theorem keeps_removeAt? (t : Table K V) (loc : Location) : t.Keeps (t.removeAt? loc).2 := by
  rw [removeAt?]
  rcases hb : t.bucketAt? loc with - | b
  · exact Keeps.refl t
  · exact ⟨rfl, rfl, fun h => layoutInvariant_dropAt h hb⟩

end Equivalence

end Table

end FlatTable

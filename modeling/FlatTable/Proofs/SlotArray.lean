import FlatTable.Table.Basic
import FlatTable.Proofs.Slot
import Mathlib.Data.List.Perm.Basic

/-!
# Slot arrays

Each slot of an array has its own list of buckets, and the traversal is their concatenation. Placing a bucket appends it to one of these lists and leaves the others alone, so placing many at once sorts them stably into slots; growing a table is an instance. A change at one slot splits the traversal around that slot.
-/

namespace FlatTable

universe u v

variable {K : Type u} {V : Type v}

/-- The buckets of the slot at an index. -/
def bucketsIn (slots : Array (Slot K V)) (i : Nat) : List (Bucket K V) := (slots.getD i .empty).buckets

/-- Every chain of the array is compact and holds at least two buckets. -/
def AllWellFormed (slots : Array (Slot K V)) : Prop := ∀ s ∈ slots.toList, s.WellFormed

/-- Every bucket stands in the slot that its hash selects. -/
def AllPlaced (slots : Array (Slot K V)) : Prop := ∀ i, ∀ b ∈ bucketsIn slots i, slotIndex b.hash slots.size = i

theorem and_sub_one_lt {capacity : Nat} (hpos : 0 < capacity) (n : Nat) : n &&& (capacity - 1) < capacity := by
  have hle : n &&& (capacity - 1) ≤ capacity - 1 := Nat.and_le_right
  omega

theorem slotIndex_lt {h : UInt32} {capacity : Nat} (hpos : 0 < capacity) : slotIndex h capacity < capacity :=
  and_sub_one_lt hpos h.toNat

/-! ### Splitting the traversal at a slot -/

theorem exists_split_of_lt {slots : Array (Slot K V)} {i : Nat} (hi : i < slots.size) :
    ∃ x y, slots.toList = x ++ slots[i] :: y ∧ x.length = i :=
  exists_split_of_getElem? (by rw [Array.getElem?_toList, Array.getElem?_eq_getElem hi])

theorem getD_of_split {slots : Array (Slot K V)} {x y : List (Slot K V)} {s : Slot K V}
    (h : slots.toList = x ++ s :: y) : slots.getD x.length .empty = s := by
  rw [Array.getD_eq_getD_getElem?, ← Array.getElem?_toList, h]
  simp

theorem toList_modify_of_split {slots : Array (Slot K V)} {x y : List (Slot K V)} {s : Slot K V}
    (h : slots.toList = x ++ s :: y) (f : Slot K V → Slot K V) :
    (slots.modify x.length f).toList = x ++ f s :: y := by
  rw [Array.toList_modify, h, modify_append_cons]

theorem bucketsOf_of_split {slots : Array (Slot K V)} {x y : List (Slot K V)} {s : Slot K V}
    (h : slots.toList = x ++ s :: y) :
    bucketsOf slots = x.flatMap Slot.buckets ++ (s.buckets ++ y.flatMap Slot.buckets) := by
  rw [bucketsOf, h, List.flatMap_append, List.flatMap_cons]

theorem mem_bucketsOf {slots : Array (Slot K V)} {b : Bucket K V} :
    b ∈ bucketsOf slots ↔ ∃ i, b ∈ bucketsIn slots i := by
  rw [bucketsOf, List.mem_flatMap]
  constructor
  · rintro ⟨s, hs, hb⟩
    obtain ⟨x, y, hsplit⟩ := List.append_of_mem hs
    exact ⟨x.length, by rw [bucketsIn, getD_of_split hsplit]; exact hb⟩
  · rintro ⟨i, hb⟩
    rw [bucketsIn, Array.getD_eq_getD_getElem?] at hb
    rcases hi : slots[i]? with - | s
    · simp [hi, Slot.buckets] at hb
    · exact ⟨s, Array.mem_toList_iff.mpr (Array.mem_of_getElem? hi), by simpa [hi] using hb⟩

theorem bucketsOf_eq_flatMap_range (slots : Array (Slot K V)) :
    bucketsOf slots = (List.range slots.size).flatMap (bucketsIn slots) := by
  have hslots : slots.toList = (List.range slots.size).map fun i => slots.getD i .empty := by
    apply List.ext_getElem?
    intro i
    rw [Array.getElem?_toList, List.getElem?_map]
    by_cases hi : i < slots.size
    · rw [List.getElem?_range hi, Option.map_some, Array.getD_eq_getD_getElem?, Array.getElem?_eq_getElem hi]
      rfl
    · rw [List.getElem?_eq_none (by simpa using hi), Array.getElem?_eq_none (by omega)]
      rfl
  rw [bucketsOf, hslots, List.flatMap_map]
  rfl

theorem AllWellFormed.of_getElem? {slots : Array (Slot K V)} (h : AllWellFormed slots) {i : Nat} {s : Slot K V}
    (hs : slots[i]? = some s) : s.WellFormed :=
  h s (Array.mem_toList_iff.mpr (Array.mem_of_getElem? hs))

theorem AllWellFormed.getD {slots : Array (Slot K V)} (h : AllWellFormed slots) (i : Nat) :
    (slots.getD i .empty).WellFormed := by
  rw [Array.getD_eq_getD_getElem?]
  rcases hi : slots[i]? with - | s
  · trivial
  · exact h.of_getElem? hi

theorem AllWellFormed.modify {slots : Array (Slot K V)} (h : AllWellFormed slots) {i : Nat}
    {f : Slot K V → Slot K V} (hf : (f (slots.getD i .empty)).WellFormed) : AllWellFormed (slots.modify i f) := by
  by_cases hi : i < slots.size
  · obtain ⟨x, y, hsplit, rfl⟩ := exists_split_of_lt hi
    rw [getD_of_split hsplit] at hf
    intro s hs
    rw [toList_modify_of_split hsplit, List.mem_append, List.mem_cons] at hs
    rcases hs with hs | rfl | hs
    · exact h s (by rw [hsplit]; simp [hs])
    · exact hf
    · exact h s (by rw [hsplit]; simp [hs])
  · rw [AllWellFormed, Array.toList_modify, List.modify_eq_self (by simpa using hi)]
    exact h

theorem bucketsIn_modify {slots : Array (Slot K V)} {i : Nat} (hi : i < slots.size) (f : Slot K V → Slot K V)
    (j : Nat) : bucketsIn (slots.modify i f) j =
      if i = j then (f (slots.getD i .empty)).buckets else bucketsIn slots j := by
  rw [bucketsIn, Array.getD_eq_getD_getElem?, Array.getElem?_modify]
  by_cases hj : i = j
  · rw [if_pos hj, if_pos hj, ← hj, Array.getElem?_eq_getElem hi, Array.getD_eq_getD_getElem?,
      Array.getElem?_eq_getElem hi]
    rfl
  · rw [if_neg hj, if_neg hj, bucketsIn, Array.getD_eq_getD_getElem?]

/-! ### Empty arrays -/

theorem bucketsIn_emptySlots (capacity i : Nat) : bucketsIn (emptySlots capacity : Array (Slot K V)) i = [] := by
  rw [bucketsIn, emptySlots, Array.getD_eq_getD_getElem?, Array.getElem?_replicate]
  split <;> rfl

theorem allPlaced_emptySlots (capacity : Nat) : AllPlaced (emptySlots capacity : Array (Slot K V)) := by
  intro i b hb
  rw [bucketsIn_emptySlots] at hb
  exact absurd hb List.not_mem_nil

theorem bucketsOf_emptySlots (capacity : Nat) : bucketsOf (emptySlots capacity : Array (Slot K V)) = [] := by
  apply List.eq_nil_iff_forall_not_mem.mpr
  intro b hb
  obtain ⟨i, hi⟩ := mem_bucketsOf.mp hb
  rw [bucketsIn_emptySlots] at hi
  exact List.not_mem_nil hi

theorem allWellFormed_emptySlots (capacity : Nat) : AllWellFormed (emptySlots capacity : Array (Slot K V)) := by
  intro s hs
  rw [emptySlots, Array.toList_replicate] at hs
  rw [List.eq_of_mem_replicate hs]
  trivial

theorem size_emptySlots (capacity : Nat) : (emptySlots capacity : Array (Slot K V)).size = capacity :=
  Array.size_replicate

/-! ### Placing buckets -/

theorem size_place (slots : Array (Slot K V)) (b : Bucket K V) : (place slots b).1.size = slots.size :=
  Array.size_modify

theorem allWellFormed_place {slots : Array (Slot K V)} (h : AllWellFormed slots) (b : Bucket K V) :
    AllWellFormed (place slots b).1 :=
  h.modify (Slot.wellFormed_add (h.getD _) b)

theorem bucketsIn_place {slots : Array (Slot K V)} (h : AllWellFormed slots) (hpos : 0 < slots.size)
    (b : Bucket K V) (j : Nat) : bucketsIn (place slots b).1 j =
      bucketsIn slots j ++ if slotIndex b.hash slots.size = j then [b] else [] := by
  rw [place, bucketsIn_modify (slotIndex_lt hpos)]
  split
  · rename_i hj
    rw [Slot.buckets_add (h.getD _), hj, bucketsIn]
  · rw [List.append_nil]

theorem bucketsOf_place_perm {slots : Array (Slot K V)} (h : AllWellFormed slots) (hpos : 0 < slots.size)
    (b : Bucket K V) : (bucketsOf (place slots b).1).Perm (b :: bucketsOf slots) := by
  have hlt : slotIndex b.hash slots.size < slots.size := slotIndex_lt hpos
  obtain ⟨x, y, hsplit, hx⟩ := exists_split_of_lt hlt
  generalize slots[slotIndex b.hash slots.size] = s at hsplit
  have hs : s.WellFormed := h s (by rw [hsplit]; simp)
  change (bucketsOf (slots.modify (slotIndex b.hash slots.size) (Slot.add b))).Perm _
  rw [← hx, bucketsOf_of_split (toList_modify_of_split hsplit _), bucketsOf_of_split hsplit, Slot.buckets_add hs]
  simp only [List.append_assoc, List.singleton_append]
  exact (List.perm_middle.append_left _).trans List.perm_middle

theorem bucketAt?_place {slots : Array (Slot K V)} (h : AllWellFormed slots) (hpos : 0 < slots.size)
    (b : Bucket K V) : bucketAt? (place slots b).1 (place slots b).2 = some b := by
  have hi : slotIndex b.hash slots.size < slots.size := slotIndex_lt hpos
  have hslot : (place slots b).2.slot = slotIndex b.hash slots.size := Slot.slot_vacancy _ _
  rw [bucketAt?, hslot, place, Array.getElem?_modify, if_pos rfl, Array.getElem?_eq_getElem hi,
    Array.getD_eq_getD_getElem?, Array.getElem?_eq_getElem hi]
  exact Slot.bucketAt?_vacancy (h _ (Array.getElem_mem_toList hi)) _ b

def placeAll (slots : Array (Slot K V)) (bs : List (Bucket K V)) : Array (Slot K V) :=
  bs.foldl (fun slots b => (place slots b).1) slots

theorem size_placeAll (slots : Array (Slot K V)) (bs : List (Bucket K V)) :
    (placeAll slots bs).size = slots.size := by
  induction bs generalizing slots with
  | nil => rfl
  | cons b bs ih => exact (ih _).trans (size_place slots b)

theorem allWellFormed_placeAll {slots : Array (Slot K V)} (h : AllWellFormed slots) (bs : List (Bucket K V)) :
    AllWellFormed (placeAll slots bs) := by
  induction bs generalizing slots with
  | nil => exact h
  | cons b bs ih => exact ih (allWellFormed_place h b)

/-- Each slot receives the buckets that belong to it, in order. -/
theorem bucketsIn_placeAll {slots : Array (Slot K V)} (h : AllWellFormed slots) (hpos : 0 < slots.size)
    (bs : List (Bucket K V)) (j : Nat) : bucketsIn (placeAll slots bs) j =
      bucketsIn slots j ++ bs.filter fun b => slotIndex b.hash slots.size = j := by
  induction bs generalizing slots with
  | nil => simp [placeAll]
  | cons b bs ih =>
    change bucketsIn (placeAll (place slots b).1 bs) j = _
    rw [ih (allWellFormed_place h b) (by rwa [size_place]), bucketsIn_place h hpos, size_place, List.append_assoc,
      List.filter_cons]
    by_cases hj : slotIndex b.hash slots.size = j <;> simp [hj]

theorem bucketsOf_placeAll_perm {slots : Array (Slot K V)} (h : AllWellFormed slots) (hpos : 0 < slots.size)
    (bs : List (Bucket K V)) : (bucketsOf (placeAll slots bs)).Perm (bs ++ bucketsOf slots) := by
  induction bs generalizing slots with
  | nil => rfl
  | cons b bs ih =>
    have hrest := ih (allWellFormed_place h b) (by rwa [size_place])
    have hfirst := (bucketsOf_place_perm h hpos b).append_left bs
    exact (hrest.trans hfirst).trans List.perm_middle

theorem allPlaced_place {slots : Array (Slot K V)} (h : AllWellFormed slots) (hpos : 0 < slots.size)
    (hplaced : AllPlaced slots) (b : Bucket K V) : AllPlaced (place slots b).1 := by
  intro i b' hb'
  rw [bucketsIn_place h hpos, List.mem_append] at hb'
  rw [size_place]
  rcases hb' with hb' | hb'
  · exact hplaced i b' hb'
  · split at hb'
    · rename_i hi
      rwa [List.mem_singleton.mp hb']
    · simp at hb'

/-- Buckets placed into an empty array stand where they belong. -/
theorem allPlaced_placeAll_emptySlots {capacity : Nat} (hpos : 0 < capacity) (bs : List (Bucket K V)) :
    AllPlaced (placeAll (emptySlots capacity) bs) := by
  intro i b hb
  rw [bucketsIn_placeAll (allWellFormed_emptySlots capacity) (by rwa [size_emptySlots]), bucketsIn_emptySlots,
    List.nil_append, List.mem_filter, size_emptySlots] at hb
  rw [size_placeAll, size_emptySlots]
  simpa using hb.2

/-! ### Live locations -/

theorem exists_split_of_bucketAt? {slots : Array (Slot K V)} {loc : Location} {b : Bucket K V}
    (hb : bucketAt? slots loc = some b) :
    ∃ x s y, slots.toList = x ++ s :: y ∧ x.length = loc.slot ∧ s.bucketAt? loc = some b := by
  obtain ⟨s, hs, hat⟩ := Option.bind_eq_some_iff.mp hb
  obtain ⟨x, y, hsplit, hx⟩ := exists_split_of_getElem? (by rwa [Array.getElem?_toList])
  exact ⟨x, s, y, hsplit, hx, hat⟩

theorem bucketAt?_of_split {slots : Array (Slot K V)} {x y : List (Slot K V)} {s : Slot K V} {loc : Location}
    (h : slots.toList = x ++ s :: y) (hx : x.length = loc.slot) : bucketAt? slots loc = s.bucketAt? loc := by
  rw [bucketAt?, ← Array.getElem?_toList, h, ← hx]
  simp

/-- The traversal around the bucket at a live location. -/
theorem exists_traversal_split {slots : Array (Slot K V)} (h : AllWellFormed slots) {loc : Location}
    {b : Bucket K V} (hb : bucketAt? slots loc = some b) : ∃ before after, bucketsOf slots = before ++ b :: after ∧
      (∀ f, bucketsOf (slots.modify loc.slot (Slot.modifyValue f loc)) = before ++ b.mapValue f :: after) ∧
      (bucketsOf (slots.modify loc.slot (Slot.remove loc))).Perm (before ++ after) := by
  obtain ⟨x, s, y, hsplit, hx, hat⟩ := exists_split_of_bucketAt? hb
  have hs : s.WellFormed := h s (by rw [hsplit]; simp)
  obtain ⟨l, r, hlr, hl⟩ := Slot.exists_split hs hat
  refine ⟨x.flatMap Slot.buckets ++ l, r ++ y.flatMap Slot.buckets, ?_, fun f => ?_, ?_⟩
  · rw [bucketsOf_of_split hsplit, hlr]
    simp
  · rw [← hx, bucketsOf_of_split (toList_modify_of_split hsplit _), Slot.buckets_modifyValue hs hat, hlr, ← hl,
      modify_append_cons]
    simp
  · rw [← hx, bucketsOf_of_split (toList_modify_of_split hsplit _), Slot.buckets_remove hs hat, hlr, ← hl,
      swapRemove_append_cons]
    simp only [List.append_assoc]
    exact (((lastToFront_perm r).append_right _).append_left l).append_left _

theorem slot_lt_of_bucketAt? {slots : Array (Slot K V)} {loc : Location} {b : Bucket K V}
    (hb : bucketAt? slots loc = some b) : loc.slot < slots.size := by
  obtain ⟨s, hs, -⟩ := Option.bind_eq_some_iff.mp hb
  exact (Array.getElem?_eq_some_iff.mp hs).1

theorem getD_bucketAt? {slots : Array (Slot K V)} {loc : Location} {b : Bucket K V}
    (hb : bucketAt? slots loc = some b) : (slots.getD loc.slot .empty).bucketAt? loc = some b := by
  obtain ⟨s, hs, hat⟩ := Option.bind_eq_some_iff.mp hb
  rw [Array.getD_eq_getD_getElem?, hs]
  exact hat

/-- Changing one slot keeps buckets placed if its buckets have hashes that it held before. -/
theorem allPlaced_modify {slots : Array (Slot K V)} (hplaced : AllPlaced slots) {i : Nat} (hi : i < slots.size)
    {f : Slot K V → Slot K V}
    (hf : ∀ b ∈ (f (slots.getD i .empty)).buckets, ∃ old ∈ bucketsIn slots i, old.hash = b.hash) :
    AllPlaced (slots.modify i f) := by
  intro j b hb
  rw [Array.size_modify]
  rw [bucketsIn_modify hi] at hb
  by_cases hj : i = j
  · rw [if_pos hj] at hb
    obtain ⟨old, hold, hhash⟩ := hf b hb
    rw [← hhash, ← hj]
    exact hplaced i old hold
  · rw [if_neg hj] at hb
    exact hplaced j b hb

theorem allPlaced_modifyValue {slots : Array (Slot K V)} (h : AllWellFormed slots) (hplaced : AllPlaced slots)
    {loc : Location} {b : Bucket K V} (hb : bucketAt? slots loc = some b) (f : V → V) :
    AllPlaced (slots.modify loc.slot (Slot.modifyValue f loc)) := by
  refine allPlaced_modify hplaced (slot_lt_of_bucketAt? hb) ?_
  intro b' hb'
  rw [Slot.buckets_modifyValue (h.getD _) (getD_bucketAt? hb)] at hb'
  obtain ⟨j, hj⟩ := List.mem_iff_getElem?.mp hb'
  rw [List.getElem?_modify] at hj
  obtain ⟨old, hold, rfl⟩ := Option.map_eq_some_iff.mp hj
  refine ⟨old, List.mem_of_getElem? hold, ?_⟩
  split <;> rfl

theorem allPlaced_remove {slots : Array (Slot K V)} (h : AllWellFormed slots) (hplaced : AllPlaced slots)
    {loc : Location} {b : Bucket K V} (hb : bucketAt? slots loc = some b) :
    AllPlaced (slots.modify loc.slot (Slot.remove loc)) := by
  refine allPlaced_modify hplaced (slot_lt_of_bucketAt? hb) ?_
  intro b' hb'
  obtain ⟨x, y, hsplit, hx⟩ := Slot.exists_split (h.getD loc.slot) (getD_bucketAt? hb)
  rw [Slot.buckets_remove (h.getD _) (getD_bucketAt? hb), hsplit, ← hx] at hb'
  refine ⟨b', ?_, rfl⟩
  rw [bucketsIn, hsplit]
  exact (swapRemove_perm x y b).mem_iff.mp (List.mem_cons_of_mem b hb')

end FlatTable

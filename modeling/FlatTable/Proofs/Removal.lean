import FlatTable.Proofs.Operations

/-!
# Taking a pair out

A pair is taken out of its slot alone: the last bucket of the slot takes its place, and the slot is empty, a pair or a chain as the buckets that are left ask for. A pair that was added last is the last of its slot, so taking it out again leaves every slot with the buckets it had, whatever vacant cells its chain has gained on the way.
-/

namespace FlatTable

universe u v

/-! ### The element whose place the last one takes -/

section Lists

variable {α : Type u} {l : List α} {i : Nat}

theorem swapRemove_eq_dropLast (hi : i + 1 = l.length) : swapRemove l i = l.dropLast := by
  have hdrop : l.drop (i + 1) = [] := by simp [hi]
  rw [swapRemove, hdrop, List.dropLast_eq_take, ← hi]
  simp [lastToFront]

theorem swapRemove_eq_set {last : α} (hi : i + 1 < l.length) (hlast : l.getLast? = some last) :
    swapRemove l i = l.dropLast.set i last := by
  obtain ⟨l, rfl⟩ := List.getLast?_eq_some_iff.mp hlast
  have hlt : i < l.length := by simpa using hi
  obtain ⟨x, y, hsplit, rfl⟩ := exists_split_of_getElem? (List.getElem?_eq_getElem hlt)
  generalize l[x.length] = a at hsplit
  subst hsplit
  rw [List.dropLast_concat, List.append_assoc, List.cons_append, swapRemove_append_cons, lastToFront_concat]
  simp

end Lists

variable {K : Type u} {V : Type v}

/-- The slot holds the buckets in the form that their number asks for. -/
def Slot.Represents (s : Slot K V) : List (Bucket K V) → Prop
  | [] => s = empty
  | [b] => s = pair b
  | bs => ∃ c, s = chained c ∧ c.Compact ∧ c.buckets = bs

theorem Slot.represents_buckets {s : Slot K V} (h : s.WellFormed) : s.Represents s.buckets := by
  cases s with
  | empty => rfl
  | pair b => rfl
  | chained c =>
    obtain ⟨hcompact, hlength⟩ := h
    show Represents (chained c) c.buckets
    rcases hbuckets : c.buckets with - | ⟨b, - | ⟨b', bs⟩⟩
    · simp [hbuckets] at hlength
    · simp [hbuckets] at hlength
    · exact ⟨c, rfl, hcompact, hbuckets⟩

namespace Table

variable [BEq K]

/-- The bucket of a key stands at an index of the slot that the key selects. -/
def StandsAt (t : Table K V) (k : K) (i : Nat) (b : Bucket K V) : Prop :=
  (bucketsIn t.slots (slotIndex (t.spreadHash k) t.capacity))[i]? = some b ∧ b.isFor (t.spreadHash k) k = true

omit [BEq K] in
/-- The second table is the first without the bucket at an index of a slot. -/
structure RemovedAt (t u : Table K V) (slot i : Nat) : Prop where
  of_last : i + 1 = (bucketsIn t.slots slot).length → bucketsIn u.slots slot = (bucketsIn t.slots slot).dropLast
  of_lt : i + 1 < (bucketsIn t.slots slot).length → ∀ last, (bucketsIn t.slots slot).getLast? = some last →
    bucketsIn u.slots slot = (bucketsIn t.slots slot).dropLast.set i last
  represents : ∃ s, u.slots[slot]? = some s ∧ s.Represents (bucketsIn u.slots slot)
  others : ∀ j ≠ slot, u.slots[j]? = t.slots[j]?
  size_eq : u.size + 1 = t.size
  frame : u.capacity = t.capacity ∧ u.maxSize = t.maxSize ∧ u.generation = t.generation ∧ u.id = t.id ∧
    u.hash = t.hash ∧ u.loadFactor = t.loadFactor

omit [BEq K] in
/-- The second table has the buckets of the first in the same order, though chains may have other vacant cells. -/
structure Restores (t u : Table K V) : Prop where
  bucketsIn_eq : ∀ i, bucketsIn u.slots i = bucketsIn t.slots i
  toList_eq : u.toList = t.toList
  size_eq : u.size = t.size
  frame : u.capacity = t.capacity ∧ u.maxSize = t.maxSize ∧ u.generation = t.generation ∧ u.id = t.id ∧
    u.hash = t.hash ∧ u.loadFactor = t.loadFactor

variable [EquivBEq K] {t : Table K V} {k : K}

/-! ### Where a key stands -/

omit [EquivBEq K] in
theorem getElem?_bucketsIn (h : t.LayoutInvariant) {loc : Location} {b : Bucket K V} (hb : t.bucketAt? loc = some b) :
    (bucketsIn t.slots loc.slot)[loc.cell]? = some b :=
  Slot.getElem?_of_bucketAt? (h.wellFormed.getD _) (getD_bucketAt? hb)

omit [EquivBEq K] in
theorem standsAt_of_locate? (h : t.LayoutInvariant) {loc : Location} (hloc : t.locate? k = some loc) :
    ∃ b, t.bucketAt? loc = some b ∧ t.StandsAt k loc.cell b := by
  obtain ⟨b, hb, hfor⟩ := bucketAt?_of_locate? h hloc
  refine ⟨b, hb, ?_, hfor⟩
  rw [capacity, ← slot_of_locate? h hloc]
  exact getElem?_bucketsIn h hb

omit [EquivBEq K] in
theorem pairwise_bucketsIn (h : t.LayoutInvariant) (i : Nat) :
    (bucketsIn t.slots i).Pairwise fun a b => ¬(a.hash = b.hash ∧ a.key == b.key) := by
  by_cases hi : i < t.slots.size
  · obtain ⟨x, y, hsplit, rfl⟩ := exists_split_of_lt hi
    have hall := h.distinct
    rw [buckets, bucketsOf_of_split hsplit, List.pairwise_append, List.pairwise_append] at hall
    rw [bucketsIn, getD_of_split hsplit]
    exact hall.2.1.1
  · have hnone : bucketsIn t.slots i = [] := by
      rw [bucketsIn, Array.getD_eq_getD_getElem?, Array.getElem?_eq_none (by omega)]
      rfl
    rw [hnone]
    exact List.Pairwise.nil

/-- A key stands at one index only. -/
theorem StandsAt.unique (h : t.LayoutInvariant) {i j : Nat} {a b : Bucket K V} (ha : t.StandsAt k i a)
    (hb : t.StandsAt k j b) : i = j := by
  have hdistinct := pairwise_bucketsIn h (slotIndex (t.spreadHash k) t.capacity)
  obtain ⟨hai, hafor⟩ := ha
  obtain ⟨hbj, hbfor⟩ := hb
  simp only [Bucket.isFor, Bool.and_eq_true, beq_iff_eq] at hafor hbfor
  have hsame : a.hash = b.hash ∧ (a.key == b.key) = true :=
    ⟨hafor.1.trans hbfor.1.symm, BEq.trans hafor.2 (BEq.symm hbfor.2)⟩
  have hsame' : b.hash = a.hash ∧ (b.key == a.key) = true := ⟨hsame.1.symm, BEq.symm hsame.2⟩
  obtain ⟨hi, rfl⟩ := List.getElem?_eq_some_iff.mp hai
  obtain ⟨hj, rfl⟩ := List.getElem?_eq_some_iff.mp hbj
  rw [List.pairwise_iff_getElem] at hdistinct
  apply Nat.le_antisymm
  · by_contra hlt
    exact hdistinct j i hj hi (by omega) hsame'
  · by_contra hlt
    exact hdistinct i j hi hj (by omega) hsame

omit [EquivBEq K] in
theorem contains_iff_standsAt (h : t.LayoutInvariant) : t.contains k = true ↔ ∃ i b, t.StandsAt k i b := by
  constructor
  · intro hk
    obtain ⟨loc, hloc⟩ := Option.isSome_iff_exists.mp hk
    obtain ⟨b, -, hstands⟩ := standsAt_of_locate? h hloc
    exact ⟨loc.cell, b, hstands⟩
  · rintro ⟨i, b, hb, hfor⟩
    rw [contains, Option.isSome_iff_ne_none]
    intro hnone
    have hmem : b ∈ t.buckets := mem_bucketsOf.mpr ⟨_, List.mem_of_getElem? hb⟩
    rw [(locate?_eq_none h).mp hnone b hmem] at hfor
    exact Bool.noConfusion hfor

/-! ### Removing -/

omit [EquivBEq K] in
theorem removedAt_dropAt (h : t.LayoutInvariant) {loc : Location} {b : Bucket K V} (hb : t.bucketAt? loc = some b) :
    t.RemovedAt (t.dropAt loc) loc.slot loc.cell := by
  have hlt := slot_lt_of_bucketAt? hb
  have hat := getD_bucketAt? hb
  have hwf := h.wellFormed.getD loc.slot
  have hnew : bucketsIn (t.dropAt loc).slots loc.slot = swapRemove (bucketsIn t.slots loc.slot) loc.cell := by
    show bucketsIn (t.slots.modify loc.slot (Slot.remove loc)) loc.slot = _
    rw [bucketsIn_modify hlt, if_pos rfl, Slot.buckets_remove hwf hat, bucketsIn]
  refine ⟨fun hlast => ?_, fun hbefore last hlast => ?_, ?_, fun j hj => ?_, ?_, ?_⟩
  · rw [hnew, swapRemove_eq_dropLast hlast]
  · rw [hnew, swapRemove_eq_set hbefore hlast]
  · have hslot : (t.dropAt loc).slots[loc.slot]? = some ((t.slots.getD loc.slot .empty).remove loc) := by
      show (t.slots.modify loc.slot (Slot.remove loc))[loc.slot]? = _
      rw [Array.getElem?_modify, if_pos rfl, Array.getD_eq_getD_getElem?, Array.getElem?_eq_getElem hlt]
      rfl
    refine ⟨_, hslot, ?_⟩
    rw [hnew, bucketsIn, ← Slot.buckets_remove hwf hat]
    exact Slot.represents_buckets (Slot.wellFormed_remove hwf hat)
  · show (t.slots.modify loc.slot (Slot.remove loc))[j]? = _
    rw [Array.getElem?_modify, if_neg (Ne.symm hj)]
  · have hpos : 0 < t.size := by
      rw [h.size_eq]
      exact List.length_pos_of_mem (mem_buckets_of_bucketAt? h hb)
    show t.size - 1 + 1 = t.size
    omega
  · exact ⟨Array.size_modify, rfl, rfl, rfl, rfl, rfl⟩

theorem removeEntry_of_standsAt (h : t.LayoutInvariant) {i : Nat} {b : Bucket K V} (hb : t.StandsAt k i b) :
    ∃ u, t.removeEntry k = (some b.toPair, u) ∧ t.RemovedAt u (slotIndex (t.spreadHash k) t.capacity) i := by
  obtain ⟨loc, hloc⟩ := Option.isSome_iff_exists.mp ((contains_iff_standsAt h).mpr ⟨i, b, hb⟩)
  obtain ⟨b', hb', hstands⟩ := standsAt_of_locate? h hloc
  obtain rfl := hb.unique h hstands
  obtain rfl := Option.some.inj (hb.1.symm.trans hstands.1)
  have hslot : loc.slot = slotIndex (t.spreadHash k) t.capacity := slot_of_locate? h hloc
  refine ⟨t.dropAt loc, ?_, hslot ▸ removedAt_dropAt h hb'⟩
  rw [removeEntry, hloc]
  simp only [removeAt?_of_bucketAt? hb', Option.map_some]

/-! ### Removing what was inserted last -/

omit [EquivBEq K] in
theorem standsAt_addNew [ReflBEq K] (h : t.LayoutInvariant) (k : K) (v : V) :
    (t.addNew (t.spreadHash k) k v).1.StandsAt k
      (bucketsIn t.slots (slotIndex (t.spreadHash k) t.capacity)).length ⟨t.spreadHash k, k, v⟩ := by
  have hcapacity : (t.addNew (t.spreadHash k) k v).1.capacity = t.capacity := size_place t.slots _
  refine ⟨?_, ?_⟩
  · show (bucketsIn (place t.slots _).1 (slotIndex (t.spreadHash k) _))[_]? = _
    rw [hcapacity, bucketsIn_place h.wellFormed h.capacity_pos, capacity, if_pos rfl]
    simp
  · show (t.spreadHash k == t.spreadHash k && k == k) = true
    simp

omit [EquivBEq K] in
theorem insert_of_room (hnone : t.locate? k = none) (hroom : t.size + 1 ≤ t.maxSize) (v : V) :
    t.insert k v = (none, (t.addNew (t.spreadHash k) k v).1) := by
  have hfits : ¬(t.addNew (t.spreadHash k) k v).1.maxSize < (t.addNew (t.spreadHash k) k v).1.size :=
    Nat.not_lt.mpr hroom
  rw [insert_of_locate?_eq_none hnone, settled, if_neg hfits]

omit [EquivBEq K] in
/-- A pair that was added and taken out again leaves every slot with the buckets it had. -/
theorem restores_of_removedAt_addNew (h : t.LayoutInvariant) {v : V} {u : Table K V}
    (hu : (t.addNew (t.spreadHash k) k v).1.RemovedAt u (slotIndex (t.spreadHash k) t.capacity)
      (bucketsIn t.slots (slotIndex (t.spreadHash k) t.capacity)).length) : t.Restores u := by
  have hcapacity : (t.addNew (t.spreadHash k) k v).1.capacity = t.capacity := size_place t.slots _
  have hadded (j : Nat) : bucketsIn (t.addNew (t.spreadHash k) k v).1.slots j = bucketsIn t.slots j ++
      if slotIndex (t.spreadHash k) t.capacity = j then [⟨t.spreadHash k, k, v⟩] else [] :=
    bucketsIn_place h.wellFormed h.capacity_pos _ j
  obtain ⟨hcap, hframe⟩ := hu.frame
  have hin : ∀ j, bucketsIn u.slots j = bucketsIn t.slots j := by
    intro j
    by_cases hj : slotIndex (t.spreadHash k) t.capacity = j
    · have hnew := hadded j
      rw [if_pos hj] at hnew
      rw [← hj] at hnew ⊢
      rw [hu.of_last (by rw [hnew]; simp), hnew, List.dropLast_concat]
    · have hsame := hadded j
      rw [if_neg hj, List.append_nil] at hsame
      rw [← hsame, bucketsIn, bucketsIn, Array.getD_eq_getD_getElem?, Array.getD_eq_getD_getElem?,
        hu.others j (Ne.symm hj)]
  refine ⟨hin, ?_, Nat.succ.inj hu.size_eq, hcap.trans hcapacity, hframe⟩
  have hsize : u.slots.size = t.slots.size := hcap.trans hcapacity
  rw [toList, toList, buckets, buckets, bucketsOf_eq_flatMap_range, bucketsOf_eq_flatMap_range, hsize, funext hin]

/-- Taking a pair out touches no slot but its own, where the last bucket takes its place. Taking out what was inserted last therefore undoes the insertion, as long as the table did not grow for it. -/
theorem removal_undoes_insertion (h : t.LayoutInvariant) :
    (∀ k, t.contains k = true ↔ ∃ i b, t.StandsAt k i b) ∧
    (∀ k i b, t.StandsAt k i b → ∃ u, t.removeEntry k = (some b.toPair, u) ∧
      t.RemovedAt u (slotIndex (t.spreadHash k) t.capacity) i) ∧
    ∀ k v, t.contains k = false → t.size + 1 ≤ t.maxSize →
      ∃ u w, t.insert k v = (none, u) ∧ u.remove k = (some v, w) ∧ t.Restores w := by
  refine ⟨fun k => contains_iff_standsAt h, fun k i b hb => removeEntry_of_standsAt h hb, fun k v hk hroom => ?_⟩
  have hnone : t.locate? k = none := by simpa [contains] using hk
  have hlayout := layoutInvariant_addNew h hnone v
  obtain ⟨w, hremoved, hw⟩ := removeEntry_of_standsAt hlayout (standsAt_addNew h k v)
  have hcapacity : (t.addNew (t.spreadHash k) k v).1.capacity = t.capacity := size_place t.slots _
  rw [hcapacity] at hw
  refine ⟨_, w, insert_of_room hnone hroom v, ?_, restores_of_removedAt_addNew h hw⟩
  rw [remove, hremoved]
  rfl

/-- A chain with two vacant cells after a removal: its first pair is taken out, or another is added and taken out again. -/
theorem removal_undoes_insertion_spare_cells : ∃ t u w : Table Nat Nat,
    t = (((build (fun _ => 7) .standard 0).extend [(1, 10), (2, 20), (3, 30)]).remove 1).2 ∧ t.LayoutInvariant ∧
      t.toList = [(3, 30), (2, 20)] ∧ (∃ b, t.StandsAt 3 0 b) ∧
      t.removeEntry 3 = (some (3, 30), u) ∧ t.RemovedAt u (slotIndex (t.spreadHash 3) t.capacity) 0 ∧
      t.contains 4 = false ∧ t.size + 1 ≤ t.maxSize ∧ ((t.insert 4 40).2.remove 4) = (some 40, w) ∧ t.Restores w := by
  obtain ⟨t, ht⟩ : ∃ t : Table Nat Nat,
    t = (((build (fun _ => 7) .standard 0).extend [(1, 10), (2, 20), (3, 30)]).remove 1).2 := ⟨_, rfl⟩
  have hlayout : t.LayoutInvariant := ht ▸ (keeps_remove _ 1).layout (layoutInvariant_extend_build _ .standard 0 _)
  obtain ⟨b, hb, hpair⟩ : ∃ b, (bucketsIn t.slots (slotIndex (t.spreadHash 3) t.capacity))[0]? = some b ∧
      b.toPair = (3, 30) := by
    apply Option.map_eq_some_iff.mp
    rw [ht]
    decide +kernel
  have hfor : b.isFor (t.spreadHash 3) 3 = true := by
    have hkey : b.key = 3 := congrArg Prod.fst hpair
    rw [isFor_eq hlayout (mem_bucketsOf.mpr ⟨_, List.mem_of_getElem? hb⟩), hkey]
    exact (sameKey_equivalence t.hash).refl 3
  have habsent : t.contains 4 = false := by
    rw [ht]
    decide +kernel
  have hroom : t.size + 1 ≤ t.maxSize := by
    rw [ht]
    decide +kernel
  obtain ⟨-, hremoves, hundoes⟩ := removal_undoes_insertion hlayout
  obtain ⟨u, hu, hremoved⟩ := hremoves 3 0 b ⟨hb, hfor⟩
  rw [hpair] at hu
  obtain ⟨u', w, hinsert, hw, hrestores⟩ := hundoes 4 40 habsent hroom
  refine ⟨t, u, w, ht, hlayout, ?_, ⟨b, hb, hfor⟩, hu, hremoved, habsent, hroom, ?_, hrestores⟩
  · rw [ht]
    decide +kernel
  · rw [hinsert, hw]

end Table

end FlatTable

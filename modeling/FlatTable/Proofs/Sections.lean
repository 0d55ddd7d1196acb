import FlatTable.Proofs.Iteration
import FlatTable.Proofs.Reachable
import FlatTable.Table.Batch

/-!
# Walking a table in sections

Where one section ends the next begins, so the sections of a cell array are cut out of it by boundaries that only rise. Every boundary of a slot array is the first cell of a slot, and therefore the slots are divided as the cells are: each slot belongs to one section, and the sections in turn give the whole traversal.
-/

namespace FlatTable

universe u v

/-! ### Boundaries -/

theorem evenUp_mod_two (n : Nat) : evenUp n % 2 = 0 := by
  rw [evenUp]
  omega

theorem evenUp_mono {m n : Nat} (h : m ≤ n) : evenUp m ≤ evenUp n := by
  simp only [evenUp]
  omega

/-- The cell at which section `i` begins and the section before it ends. -/
def boundary (cells count i : Nat) : Nat := if i = count then cells else min (evenUp (i * (cells / count))) cells

section Boundaries

variable (cells : Nat) {count i j : Nat}

theorem sectionRange_eq (hi : i < count) :
    sectionRange cells i count = ⟨boundary cells count i, boundary cells count (i + 1)⟩ := by
  rw [boundary, if_neg (Nat.ne_of_lt hi)]
  rfl

theorem boundary_zero (hpos : 0 < count) : boundary cells count 0 = 0 := by
  rw [boundary, if_neg (Nat.ne_of_lt hpos), Nat.zero_mul]
  exact Nat.zero_min cells

theorem boundary_count (count : Nat) : boundary cells count count = cells := if_pos rfl

theorem boundary_le (count i : Nat) : boundary cells count i ≤ cells := by
  rw [boundary]
  split
  · exact Nat.le_refl cells
  · exact Nat.min_le_right _ cells

theorem boundary_mono (hij : i ≤ j) (hj : j ≤ count) : boundary cells count i ≤ boundary cells count j := by
  by_cases hlast : j = count
  · rw [hlast, boundary_count]
    exact boundary_le cells count i
  · have hmul := evenUp_mono (Nat.mul_le_mul_right (cells / count) hij)
    rw [boundary, boundary, if_neg hlast, if_neg (by omega)]
    omega

theorem boundary_mod_two {cells : Nat} (hcells : cells % 2 = 0) (count i : Nat) : boundary cells count i % 2 = 0 := by
  have heven := evenUp_mod_two (i * (cells / count))
  rw [boundary]
  split
  · exact hcells
  · omega

end Boundaries

/-- The range has the cell. -/
def CellRange.Covers (r : CellRange) (cell : Nat) : Prop := r.start ≤ cell ∧ cell < r.stop

/-- Every cell is in one section and in no other. -/
theorem existsUnique_covers {cells count : Nat} (hpos : 0 < count) {cell : Nat} (hcell : cell < cells) :
    ∃! i, i < count ∧ (sectionRange cells i count).Covers cell := by
  have hfound : ∀ n, n ≤ count → cell < boundary cells count n →
      ∃ i < n, boundary cells count i ≤ cell ∧ cell < boundary cells count (i + 1) := by
    intro n
    induction n with
    | zero =>
      intro _ hlt
      rw [boundary_zero _ hpos] at hlt
      omega
    | succ n ih =>
      intro hn hlt
      by_cases hbefore : cell < boundary cells count n
      · obtain ⟨i, hi, hcovers⟩ := ih (by omega) hbefore
        exact ⟨i, by omega, hcovers⟩
      · exact ⟨n, Nat.lt_succ_self n, by omega, hlt⟩
  obtain ⟨i, hi, hcovers⟩ := hfound count (Nat.le_refl count) (by rwa [boundary_count])
  refine ⟨i, ⟨hi, by rwa [sectionRange_eq _ hi]⟩, ?_⟩
  rintro j ⟨hj, hstart, hstop⟩
  rw [sectionRange_eq _ hj] at hstart hstop
  -- Of two different sections, the one in front ends before the other begins.
  by_contra hne
  rcases Nat.lt_or_gt_of_ne hne with hlt | hlt
  · have hmono := boundary_mono cells (i := j + 1) hlt (Nat.le_of_lt hi)
    dsimp only at hstop
    omega
  · have hmono := boundary_mono cells (i := i + 1) hlt (Nat.le_of_lt hj)
    dsimp only at hstart
    omega

/-- Rising edges cut a list into pieces that together are its part in front of the last edge. -/
theorem flatMap_range_extract {α : Type u} (l : List α) (edge : Nat → Nat) (hzero : edge 0 = 0) {n : Nat}
    (hmono : ∀ i < n, edge i ≤ edge (i + 1)) :
    ((List.range n).flatMap fun i => l.extract (edge i) (edge (i + 1))) = l.take (edge n) := by
  induction n with
  | zero => simp [hzero]
  | succ n ih =>
    have hlast : edge (n + 1) = edge n + (edge (n + 1) - edge n) := by
      have := hmono n (Nat.lt_succ_self n)
      omega
    rw [List.range_succ, List.flatMap_append, ih fun i hi => hmono i (by omega), List.flatMap_singleton,
      List.extract_eq_take_drop, hlast, List.take_add, Nat.add_sub_cancel_left]

namespace Table

variable {K : Type u} {V : Type v}

/-! ### The pairs of a section -/

theorem pairsIn_eq (t : Table K V) (r : CellRange) :
    t.pairsIn r = ((t.slots.toList.extract (r.start / 2) (r.stop / 2)).flatMap Slot.buckets).map Bucket.toPair := by
  rw [pairsIn, bucketsOf, Array.toList_extract]

theorem flatten_sections (t : Table K V) {count : Nat} (hpos : 0 < count) : (t.sections count).flatten = t.toList := by
  have hcut : (List.range count).flatMap (fun i => t.slots.toList.extract (boundary t.cellCount count i / 2)
      (boundary t.cellCount count (i + 1) / 2)) = t.slots.toList := by
    have hedges := flatMap_range_extract t.slots.toList (fun i => boundary t.cellCount count i / 2) (n := count)
      (by rw [boundary_zero _ hpos]) fun i hi => Nat.div_le_div_right (boundary_mono t.cellCount (Nat.le_succ i) hi)
    rw [hedges, boundary_count, cellCount, List.take_of_length_le]
    rw [Array.length_toList]
    omega
  have hpart : ∀ i ∈ List.range count, t.pairsIn (sectionRange t.cellCount i count) =
      ((t.slots.toList.extract (boundary t.cellCount count i / 2)
        (boundary t.cellCount count (i + 1) / 2)).flatMap Slot.buckets).map Bucket.toPair := by
    intro i hi
    rw [sectionRange_eq _ (List.mem_range.mp hi), pairsIn_eq]
  rw [sections, List.map_congr_left hpart, toList, buckets, bucketsOf]
  conv_rhs => rw [← hcut]
  rw [List.flatMap_assoc, List.map_flatMap, List.flatMap_def]

theorem sectionPairs_of_lt (t : Table K V) {index count : Nat} (h : index < count) :
    t.sectionPairs index count = .ok (t.pairsIn (sectionRange t.cellCount index count)) := by
  rw [sectionPairs, sectionBounds, if_neg (by omega), if_neg (by omega)]

theorem sectionPairs_of_le (t : Table K V) {index count : Nat} (h : count ≤ index) : t.sectionPairs index count =
    .error (.invalidArgument (if count = 0 then .noSections else .sectionIndex index count)) := by
  rw [sectionPairs, sectionBounds, if_pos h]
  by_cases hzero : count = 0
  · rw [if_pos hzero, if_pos hzero]
  · rw [if_neg hzero, if_neg hzero]

theorem of_sectionPairs_eq_ok {t : Table K V} {i count : Nat} {part : List (K × V)}
    (h : t.sectionPairs i count = .ok part) : i < count ∧ part = t.pairsIn (sectionRange t.cellCount i count) := by
  rcases Nat.lt_or_ge i count with hlt | hge
  · rw [sectionPairs_of_lt t hlt] at h
    exact ⟨hlt, (Except.ok.inj h).symm⟩
  · rw [sectionPairs_of_le t hge] at h
    cases h

theorem perm_parallelPairs (t : Table K V) {workers : Nat} (hpos : 0 < workers) {order : List Nat}
    (horder : order.Perm (List.range workers)) : (t.parallelPairs workers order).Perm t.toList := by
  rw [← flatten_sections t hpos, sections, ← List.flatMap_def]
  exact horder.flatMap_right _

/-! ### Which section meets a pair -/

theorem mem_bucketsOf_extract {slots : Array (Slot K V)} {start stop : Nat} (hstop : stop ≤ slots.size)
    {b : Bucket K V} :
    b ∈ bucketsOf (slots.extract start stop) ↔ ∃ i, start ≤ i ∧ i < stop ∧ b ∈ bucketsIn slots i := by
  have hin : ∀ i, bucketsIn (slots.extract start stop) i =
      if i < stop - start then bucketsIn slots (start + i) else [] := by
    intro i
    rw [bucketsIn, Array.getD_eq_getD_getElem?, Array.getElem?_extract, Nat.min_eq_left hstop]
    split
    · rw [bucketsIn, Array.getD_eq_getD_getElem?]
    · rfl
  rw [mem_bucketsOf]
  constructor
  · rintro ⟨i, hb⟩
    rw [hin] at hb
    split at hb
    · exact ⟨start + i, by omega, by omega, hb⟩
    · exact absurd hb List.not_mem_nil
  · rintro ⟨i, hstart, hlt, hb⟩
    refine ⟨i - start, ?_⟩
    rw [hin, if_pos (by omega), Nat.add_sub_cancel' hstart]
    exact hb

variable [BEq K]

/-- The slot in which the pairs of a key stand. -/
def slotOf (t : Table K V) (k : K) : Nat := slotIndex (t.spreadHash k) t.capacity

theorem mem_bucketsIn_slotOf {t : Table K V} (h : t.LayoutInvariant) {i : Nat} {b : Bucket K V}
    (hb : b ∈ bucketsIn t.slots i) : t.slotOf b.key = i := by
  rw [slotOf, ← h.hashed b (mem_bucketsOf.mpr ⟨i, hb⟩)]
  exact h.placed i b hb

/-- A range that begins and ends with a slot meets the pairs of the slots whose first cell it has, and no others. -/
theorem mem_pairsIn_iff {t : Table K V} (h : t.LayoutInvariant) {p : K × V} (hp : p ∈ t.toList) {r : CellRange}
    (hstart : r.start % 2 = 0) (hstop : r.stop % 2 = 0) (hin : r.stop ≤ t.cellCount) :
    p ∈ t.pairsIn r ↔ r.Covers (2 * t.slotOf p.1) := by
  have hsize : r.stop / 2 ≤ t.slots.size := by
    rw [cellCount] at hin
    omega
  rw [pairsIn, CellRange.Covers, List.mem_map]
  constructor
  · rintro ⟨b, hb, rfl⟩
    obtain ⟨i, hge, hlt, hslot⟩ := (mem_bucketsOf_extract hsize).mp hb
    change _ ≤ 2 * t.slotOf b.key ∧ 2 * t.slotOf b.key < _
    rw [mem_bucketsIn_slotOf h hslot]
    omega
  · rintro ⟨hge, hlt⟩
    obtain ⟨b, hb, rfl⟩ := List.mem_map.mp hp
    obtain ⟨i, hslot⟩ := mem_bucketsOf.mp hb
    change _ ≤ 2 * t.slotOf b.key at hge
    change 2 * t.slotOf b.key < _ at hlt
    rw [mem_bucketsIn_slotOf h hslot] at hge hlt
    exact ⟨b, (mem_bucketsOf_extract hsize).mpr ⟨i, by omega, by omega, hslot⟩, rfl⟩

theorem slotOf_lt {t : Table K V} (h : t.LayoutInvariant) (k : K) : t.slotOf k < t.capacity :=
  slotIndex_lt h.capacity_pos

/-- No pair stands in the traversal twice. -/
theorem nodup_toList [EquivBEq K] {t : Table K V} (h : t.LayoutInvariant) : t.toList.Nodup := by
  refine (distinct_toList h).imp ?_
  rintro p q hpq rfl
  rw [(sameKey_equivalence t.hash).refl p.1] at hpq
  exact Bool.noConfusion hpq

/-- What walking a table in `count` sections comes to. -/
structure CoveredBySections (t : Table K V) (count : Nat) : Prop where
  /-- The sections lie in the slot array. -/
  in_bounds : ∀ i < count, (sectionRange t.cellCount i count).start ≤ (sectionRange t.cellCount i count).stop ∧
    (sectionRange t.cellCount i count).stop / 2 ≤ t.capacity
  /-- One section after the other meets what an iterator yields, in the same order. -/
  in_order : ∃ parts : List (List (K × V)), parts.length = count ∧
    (∀ i < count, ∃ part, parts[i]? = some part ∧ t.sectionPairs i count = .ok part) ∧ parts.flatten = t.iter.toList
  /-- A pair is met by the section that has the first cell of its slot. -/
  mem_iff : ∀ p ∈ t.iter.toList, ∀ i part, t.sectionPairs i count = .ok part →
    (p ∈ part ↔ (sectionRange t.cellCount i count).Covers (2 * t.slotOf p.1))
  existsUnique_section : ∀ p ∈ t.iter.toList, ∃! i, i < count ∧ ∃ part, t.sectionPairs i count = .ok part ∧ p ∈ part
  /-- Workers that take one section each meet every pair once and nothing else, in whatever order they run. -/
  parallel : ∀ order : List Nat, order.Perm (List.range count) →
    (t.parallelPairs count order).Perm t.iter.toList ∧ (t.parallelPairs count order).Nodup

theorem coveredBySections [EquivBEq K] {t : Table K V} (h : t.LayoutInvariant) {count : Nat} (hpos : 0 < count) :
    t.CoveredBySections count := by
  have hcells : t.cellCount % 2 = 0 := Nat.mul_mod_right 2 t.slots.size
  have howner : ∀ p ∈ t.toList, ∀ i < count, (p ∈ t.pairsIn (sectionRange t.cellCount i count) ↔
      (sectionRange t.cellCount i count).Covers (2 * t.slotOf p.1)) := by
    intro p hp i hi
    rw [sectionRange_eq _ hi]
    exact mem_pairsIn_iff h hp (boundary_mod_two hcells count i) (boundary_mod_two hcells count (i + 1))
      (boundary_le t.cellCount count (i + 1))
  have hperm : ∀ order : List Nat, order.Perm (List.range count) → (t.parallelPairs count order).Perm t.toList :=
    fun order horder => perm_parallelPairs t hpos horder
  refine ⟨?_, ?_, ?_, ?_, ?_⟩
  · intro i hi
    have hle := boundary_le t.cellCount count (i + 1)
    rw [sectionRange_eq _ hi]
    refine ⟨boundary_mono t.cellCount (Nat.le_succ i) hi, ?_⟩
    show boundary t.cellCount count (i + 1) / 2 ≤ t.slots.size
    rw [cellCount] at hle ⊢
    omega
  · rw [toList_iter h]
    refine ⟨t.sections count, by simp [sections], ?_, flatten_sections t hpos⟩
    intro i hi
    exact ⟨_, by simp [sections, hi], sectionPairs_of_lt t hi⟩
  · rw [toList_iter h]
    intro p hp i part hpart
    obtain ⟨hi, rfl⟩ := of_sectionPairs_eq_ok hpart
    exact howner p hp i hi
  · rw [toList_iter h]
    intro p hp
    have hcell : 2 * t.slotOf p.1 < t.cellCount := by
      have := slotOf_lt h p.1
      rw [cellCount]
      rw [capacity] at this
      omega
    obtain ⟨i, ⟨hi, hcovers⟩, honly⟩ := existsUnique_covers hpos hcell
    refine ⟨i, ⟨hi, _, sectionPairs_of_lt t hi, (howner p hp i hi).mpr hcovers⟩, ?_⟩
    rintro j ⟨hj, part, hpart, hmem⟩
    obtain ⟨-, rfl⟩ := of_sectionPairs_eq_ok hpart
    exact honly j ⟨hj, (howner p hp j hj).mp hmem⟩
  · rw [toList_iter h]
    intro order horder
    exact ⟨hperm order horder, (hperm order horder).nodup_iff.mpr (nodup_toList h)⟩

/-- Whatever the number of sections, they divide the pairs of a reachable table among them and keep their order; a section that there is not is refused. -/
theorem sections_cover {K V : Type} [BEq K] [EquivBEq K] {t : Table K V} (h : t.Reachable) :
    (∀ count, 0 < count → t.CoveredBySections count) ∧
      ∀ index count, count ≤ index → t.sectionPairs index count =
        .error (.invalidArgument (if count = 0 then .noSections else .sectionIndex index count)) :=
  ⟨fun _ hpos => coveredBySections (sound_of_reachable h).layout hpos, fun _ _ hle => sectionPairs_of_le t hle⟩

/-- More sections than cells, over a table with a chain of three. -/
theorem sections_cover_colliding : ∃ t : Table Nat Nat,
    t = (build (fun k => if k < 4 then 7 else 1) .standard 0).extend [(1, 10), (2, 20), (3, 30), (9, 90)] ∧
      t.Reachable ∧ t.CoveredBySections 40 ∧
      t.sectionPairs 40 40 = .error (.invalidArgument (.sectionIndex 40 40)) := by
  have hreachable := Reachable.made (Made.collect (fun k : Nat => if k < 4 then 7 else 1)
    [(1, 10), (2, 20), (3, 30), (9, 90)] 0)
  exact ⟨_, rfl, hreachable, (sections_cover hreachable).1 40 (by decide),
    (sections_cover hreachable).2 40 40 (by decide)⟩

end Table

end FlatTable

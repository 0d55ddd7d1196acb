import FlatTable.Proofs.Sections
import FlatTable.Proofs.Words

/-!
# The bounds of sections

The sections of a run of cells are cut at multiples of their common size, moved up to even cells. No boundary is moved past the next one or past the end, since in front of both there is a whole section or none that has a cell. The sizes and boundaries of any number of cells that is a word are words themselves, and so are all numbers met on the way to them.

A number of sections that is chosen for a target size gives sections of about that size. What the divisions leave over, the last section takes, and it is less than the target.
-/

namespace FlatTable

/-! ### Where a section begins -/

section Starts

variable {cells count i : Nat}

/-- A section that does not come last leaves room for the cell by which its start may move up. -/
theorem evenUp_mul_le (hi : i < count) : evenUp (i * (cells / count)) ≤ cells := by
  have hnext : (i + 1) * (cells / count) ≤ cells :=
    (Nat.mul_le_mul_right _ hi).trans (Nat.mul_div_le cells count)
  rw [Nat.add_mul, Nat.one_mul] at hnext
  rw [evenUp]
  rcases Nat.eq_zero_or_pos (cells / count) with hzero | hpos
  · rw [hzero, Nat.mul_zero]
    exact Nat.zero_le cells
  · omega

theorem boundary_eq_evenUp (hi : i < count) : boundary cells count i = evenUp (i * (cells / count)) := by
  rw [boundary, if_neg (Nat.ne_of_lt hi)]
  exact Nat.min_eq_left (evenUp_mul_le hi)

/-- Every section begins at an even cell, whether or not the number of cells is even. -/
theorem boundary_even (hi : i < count) : boundary cells count i % 2 = 0 := by
  rw [boundary_eq_evenUp hi]
  exact evenUp_mod_two _

/-- Only a boundary moves, and by one cell at most. -/
theorem boundary_succ_near (hi : i + 1 < count) : boundary cells count i + cells / count ≤ boundary cells count (i + 1) + 1 ∧
    boundary cells count (i + 1) ≤ boundary cells count i + cells / count + 1 := by
  rw [boundary_eq_evenUp hi, boundary_eq_evenUp (Nat.lt_of_succ_lt hi), Nat.add_mul, Nat.one_mul]
  simp only [evenUp]
  omega

theorem lt_of_covers (hi : i < count) {cell : Nat} (h : (sectionRange cells i count).Covers cell) : cell < cells := by
  rw [sectionRange_eq _ hi] at h
  exact Nat.lt_of_lt_of_le h.2 (boundary_le cells count (i + 1))

end Starts

/-! ### Sections in words -/

def evenUpWord? (cell : UInt64) : Option UInt64 := Word.add? cell (cell &&& 1)

/-- The bounds of a section, computed in words. -/
def sectionWords? (cells index count : UInt64) : Option (UInt64 × UInt64) := do
  let size := cells / count
  let start ← evenUpWord? (← Word.mul? index size)
  let next ← Word.add? index 1
  if next = count then return (min start cells, cells)
  let stop ← evenUpWord? (← Word.mul? next size)
  return (min start cells, min stop cells)

/-- A product of which even the next even number is within the cells is a word, and so is that number. -/
theorem exists_evenUpWord? (cells : UInt64) {a b : UInt64} (hle : evenUp (a.toNat * b.toNat) ≤ cells.toNat) :
    ∃ product even, Word.mul? a b = some product ∧ evenUpWord? product = some even ∧
      even.toNat = evenUp (a.toNat * b.toNat) := by
  have hcells := Word.toNat_lt cells
  have hproduct : a.toNat * b.toNat ≤ evenUp (a.toNat * b.toNat) := Nat.le_add_right _ _
  obtain ⟨product, hmul, hproductNat⟩ := Word.exists_ofNat? (n := a.toNat * b.toNat) (by omega)
  obtain ⟨even, heven, hevenNat⟩ := Word.exists_ofNat? (n := evenUp (a.toNat * b.toNat)) (by omega)
  refine ⟨product, even, hmul, ?_, hevenNat⟩
  rw [evenUpWord?, Word.add?, Word.toNat_and_one, hproductNat]
  exact heven

/-- No step on the way to the bounds of a section leaves the words. -/
theorem exists_sectionWords? (cells : UInt64) {index count : UInt64} (hindex : index < count) :
    ∃ start stop, sectionWords? cells index count = some (start, stop) ∧
      sectionRange cells.toNat index.toNat count.toNat = ⟨start.toNat, stop.toNat⟩ := by
  have hlt : index.toNat < count.toNat := hindex
  have hcount := Word.toNat_lt count
  have hsize : (cells / count).toNat = cells.toNat / count.toNat := UInt64.toNat_div cells count
  obtain ⟨_, start, hmul, hstart, hstartNat⟩ := exists_evenUpWord? cells (a := index) (b := cells / count)
    (by rw [hsize]; exact evenUp_mul_le hlt)
  obtain ⟨next, hnext, hnextNat⟩ := Word.exists_ofNat? (n := index.toNat + 1) (by omega)
  have hadd : Word.add? index 1 = some next := hnext
  rw [hsize] at hstartNat
  by_cases hlast : next = count
  · refine ⟨min start cells, cells, by simp [sectionWords?, hmul, hstart, hadd, hlast], ?_⟩
    have hlastNat : index.toNat + 1 = count.toNat := by rw [← hnextNat, hlast]
    rw [sectionRange, if_pos hlastNat, UInt64.toNat_min, hstartNat]
  · have hlastNat : index.toNat + 1 ≠ count.toNat := by
      rw [← hnextNat]
      exact fun h => hlast (UInt64.toNat_inj.mp h)
    obtain ⟨_, stop, hmul', hstop, hstopNat⟩ := exists_evenUpWord? cells (a := next) (b := cells / count)
      (by rw [hsize, hnextNat]; exact evenUp_mul_le (by omega))
    rw [hsize, hnextNat] at hstopNat
    refine ⟨min start cells, min stop cells, by simp [sectionWords?, hmul, hstart, hadd, hlast, hmul', hstop], ?_⟩
    rw [sectionRange, if_neg hlastNat, UInt64.toNat_min, UInt64.toNat_min, hstartNat, hstopNat]

/-! ### The partition -/

/-- The sections cut out of the cells are next to each other, begin at even cells and are about equally long. -/
structure CellPartition (cells count : Nat) (part : Nat → CellRange) : Prop where
  start_zero : (part 0).start = 0
  stop_eq_start {i : Nat} (hi : i + 1 < count) : (part i).stop = (part (i + 1)).start
  start_le_stop {i : Nat} (hi : i < count) : (part i).start ≤ (part i).stop
  stop_last : (part (count - 1)).stop = cells
  /-- There are no gaps and no overlaps. -/
  existsUnique_covers {cell : Nat} (h : cell < cells) : ∃! i, i < count ∧ (part i).Covers cell
  within {i : Nat} (hi : i < count) {cell : Nat} (h : (part i).Covers cell) : cell < cells
  start_even {i : Nat} (hi : i < count) : (part i).start % 2 = 0
  /-- Only the end of an odd number of cells is odd. -/
  stop_odd_iff {i : Nat} (hi : i < count) : (part i).stop % 2 = 1 ↔ i + 1 = count ∧ cells % 2 = 1
  length_near {i : Nat} (hi : i + 1 < count) : cells / count ≤ (part i).stop - (part i).start + 1 ∧
    (part i).stop - (part i).start ≤ cells / count + 1

theorem partition_sectionRange (cells : Nat) {count : Nat} (hpos : 0 < count) :
    CellPartition cells count fun i => sectionRange cells i count := by
  have hpart : ∀ i, i < count → sectionRange cells i count = ⟨boundary cells count i, boundary cells count (i + 1)⟩ :=
    fun i hi => sectionRange_eq cells hi
  refine ⟨?_, ?_, ?_, ?_, ?_, fun hi _ h => lt_of_covers hi h, ?_, ?_, ?_⟩
  · rw [hpart 0 hpos]
    exact boundary_zero cells hpos
  · intro i hi
    rw [hpart i (Nat.lt_of_succ_lt hi), hpart (i + 1) hi]
  · intro i hi
    rw [hpart i hi]
    exact boundary_mono cells (Nat.le_succ i) hi
  · rw [hpart (count - 1) (Nat.sub_lt hpos Nat.one_pos), Nat.sub_add_cancel hpos]
    exact boundary_count cells count
  · exact existsUnique_covers hpos
  · intro i hi
    rw [hpart i hi]
    exact boundary_even hi
  · intro i hi
    rw [hpart i hi]
    show boundary cells count (i + 1) % 2 = 1 ↔ _
    by_cases hlast : i + 1 = count
    · rw [hlast, boundary_count]
      exact (and_iff_right rfl).symm
    · have heven : boundary cells count (i + 1) % 2 = 0 := boundary_even (by omega)
      omega
  · intro i hi
    rw [hpart i (Nat.lt_of_succ_lt hi)]
    obtain ⟨hnear, hnear'⟩ : boundary cells count i + cells / count ≤ boundary cells count (i + 1) + 1 ∧
      boundary cells count (i + 1) ≤ boundary cells count i + cells / count + 1 := boundary_succ_near hi
    have hmono : boundary cells count i ≤ boundary cells count (i + 1) :=
      boundary_mono cells (Nat.le_succ i) (Nat.le_of_lt hi)
    dsimp only
    omega

/-- The sections of any number of cells that is a word are a partition of them, and their bounds are computed without leaving the words. -/
theorem sectionBounds_partition (cells : UInt64) {count : UInt64} (hpos : 0 < count) :
    ∃ part : Nat → CellRange, CellPartition cells.toNat count.toNat part ∧
      ∀ index, index < count →
        sectionBounds cells.toNat index.toNat count.toNat = .ok (part index.toNat) ∧
        ∃ start stop, sectionWords? cells index count = some (start, stop) ∧
          part index.toNat = ⟨start.toNat, stop.toNat⟩ := by
  have hposNat : 0 < count.toNat := hpos
  refine ⟨fun i => sectionRange cells.toNat i count.toNat, partition_sectionRange cells.toNat hposNat, ?_⟩
  intro index hindex
  have hlt : index.toNat < count.toNat := hindex
  refine ⟨?_, exists_sectionWords? cells hindex⟩
  rw [sectionBounds, if_neg (by omega), if_neg (by omega)]

/-- As many cells as there can be, in sections of an odd size. -/
theorem sectionBounds_partition_largest : (0 : UInt64) < 3 ∧ ∃ part : Nat → CellRange,
    CellPartition 18446744073709551615 3 part ∧ sectionBounds 18446744073709551615 1 3 = .ok (part 1) ∧
      part 1 = ⟨6148914691236517206, 12297829382473034410⟩ := by
  obtain ⟨part, hpartition, hbounds⟩ := sectionBounds_partition 18446744073709551615 (show (0 : UInt64) < 3 by decide)
  have hsection := (hbounds 1 (by decide)).1
  have hcells : (18446744073709551615 : UInt64).toNat = 18446744073709551615 := by decide
  have hindex : (1 : UInt64).toNat = 1 := by decide
  have hcount : (3 : UInt64).toNat = 3 := by decide
  rw [hcells, hcount] at hpartition
  rw [hcells, hindex, hcount] at hsection
  have hpart : sectionBounds 18446744073709551615 1 3 = .ok ⟨6148914691236517206, 12297829382473034410⟩ := by
    decide +kernel
  exact ⟨by decide, part, hpartition, hsection, Except.ok.inj (hsection.symm.trans hpart)⟩

/-! ### Sections of about a given size -/

section Targets

variable {cells target : Nat}

theorem le_size_of_target (hle : target ≤ cells) : target ≤ cells / (cells / target) := by
  rcases Nat.eq_zero_or_pos target with hzero | hpos
  · rw [hzero]
    exact Nat.zero_le _
  · rw [Nat.le_div_iff_mul_le (Nat.div_pos hle hpos)]
    exact Nat.mul_div_le cells target

/-- The size of the sections and the cells that are left over stay together below the double of the target. -/
theorem size_add_rest_lt (hpos : 0 < target) (hle : target ≤ cells) :
    cells / (cells / target) + cells % (cells / target) < 2 * target := by
  have hcount : 0 < cells / target := Nat.div_pos hle hpos
  have hcut : cells / target * (cells / (cells / target)) + cells % (cells / target) = cells := Nat.div_add_mod _ _
  have hwhole : cells / target * target + cells % target = cells := Nat.div_add_mod' cells target
  have hrest : cells % target < target := Nat.mod_lt cells hpos
  obtain ⟨extra, hsize⟩ := Nat.exists_eq_add_of_le (le_size_of_target hle)
  -- What the sections have beyond the target comes out of what the first division left over.
  rw [hsize, Nat.mul_add] at hcut
  have hextra : extra ≤ cells / target * extra := Nat.le_mul_of_pos_left extra hcount
  omega

/-- Each section has as many cells as the target says, up to one less or as many more again. -/
theorem length_near_target (hpos : 0 < target) (hle : target ≤ cells) {i : Nat} (hi : i < cells / target) :
    boundary cells (cells / target) i + target ≤ boundary cells (cells / target) (i + 1) + 1 ∧
      boundary cells (cells / target) (i + 1) ≤ boundary cells (cells / target) i + 2 * target := by
  have hsize := le_size_of_target hle
  have hrest := size_add_rest_lt hpos hle
  by_cases hlast : i + 1 = cells / target
  · have hcut : cells / target * (cells / (cells / target)) + cells % (cells / target) = cells := Nat.div_add_mod _ _
    rw [boundary_eq_evenUp hi, hlast, boundary_count, evenUp]
    rw [← hlast, Nat.add_mul, Nat.one_mul] at hcut
    rw [← hlast] at hsize hrest ⊢
    omega
  · have hinner : i + 1 < cells / target := by omega
    have hnear := @boundary_succ_near cells (cells / target) i hinner
    omega

end Targets

/-- A table with at least as many cells as the target is divided into sections of about so many cells, the last one included; a smaller one is a single section. A target of zero is taken as one. -/
theorem Table.sectionCount_near_target {K V : Type} (t : Table K V) (target : Nat) :
    ∃ part : Nat → CellRange,
      (∀ i < t.sectionCount target, sectionBounds t.cellCount i (t.sectionCount target) = .ok (part i) ∧
        (part i).start ≤ (part i).stop) ∧
      (max target 1 ≤ t.cellCount → ∀ i < t.sectionCount target,
        max target 1 - 1 ≤ (part i).stop - (part i).start ∧ (part i).stop - (part i).start ≤ 2 * max target 1) ∧
      (t.cellCount < max target 1 → t.sectionCount target = 1 ∧ part 0 = ⟨0, t.cellCount⟩) := by
  have hpos : 0 < max target 1 := by omega
  refine ⟨fun i => sectionRange t.cellCount i (t.sectionCount target), ?_, ?_, ?_⟩
  · intro i hi
    refine ⟨by rw [sectionBounds, if_neg (by omega), if_neg (by omega)], ?_⟩
    exact (partition_sectionRange t.cellCount (by omega)).start_le_stop hi
  · intro hle i hi
    have hcount : t.sectionCount target = t.cellCount / max target 1 := max_eq_left (Nat.div_pos hle hpos)
    rw [hcount] at hi ⊢
    dsimp only
    rw [sectionRange_eq _ hi]
    obtain ⟨hshort, hlong⟩ := length_near_target hpos hle hi
    dsimp only
    omega
  · intro hlt
    have hcount : t.sectionCount target = 1 := by rw [sectionCount, Nat.div_eq_of_lt hlt, Nat.zero_max]
    refine ⟨hcount, ?_⟩
    rw [hcount]
    dsimp only
    rw [sectionRange_eq _ Nat.one_pos, boundary_zero _ Nat.one_pos, boundary_count]

/-- Sixteen cells in sections of about five, the last of which takes what is left over. -/
theorem Table.sectionCount_near_target_uneven : ∃ (t : Table UInt64 UInt64) (part : Nat → CellRange),
    t.cellCount = 16 ∧ t.sectionCount 5 = 3 ∧ sectionBounds t.cellCount 2 3 = .ok (part 2) ∧ part 2 = ⟨10, 16⟩ ∧
      max 5 1 - 1 ≤ (part 2).stop - (part 2).start ∧ (part 2).stop - (part 2).start ≤ 2 * max 5 1 := by
  obtain ⟨t, ht⟩ : ∃ t : Table UInt64 UInt64, t = build (fun _ => 7) .standard 0 := ⟨_, rfl⟩
  have hcells : t.cellCount = 16 := by
    rw [ht]
    decide +kernel
  have hcount : t.sectionCount 5 = 3 := by
    rw [sectionCount, hcells]
    decide
  obtain ⟨part, hpart, hnear, -⟩ := sectionCount_near_target t 5
  have hlast : (2 : Nat) < t.sectionCount 5 := by omega
  have hbounds := (hpart 2 hlast).1
  obtain ⟨hshort, hlong⟩ := hnear (by omega) 2 hlast
  rw [hcount] at hbounds
  have hrange : sectionBounds 16 2 3 = .ok ⟨10, 16⟩ := by decide +kernel
  have hpart2 : part 2 = ⟨10, 16⟩ := by
    rw [hcells] at hbounds
    exact Except.ok.inj (hbounds.symm.trans hrange)
  exact ⟨t, part, hcells, hcount, hbounds, hpart2, hshort, hlong⟩

end FlatTable

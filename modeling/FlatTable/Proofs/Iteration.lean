import FlatTable.Proofs.Locations
import FlatTable.Table.Iter

/-!
# What an iterator yields

What is to come of an iterator are the live cells left of the chain begun and the buckets of the slots behind it. Chains being packed, a vacant cell has none but vacant ones behind it, so cells that the walk leaves over never come up again. A call yields the first of what is to come, and the count falls by one with it.
-/

namespace FlatTable

universe u v w

variable {K : Type u} {V : Type v}

/-- The buckets of some cells before the first vacant one. -/
def livePrefix : List (Option (Bucket K V) × Location) → List (Location × Bucket K V)
  | (some b, loc) :: cells => (loc, b) :: livePrefix cells
  | _ => []

/-- Behind a vacant cell there are vacant cells only. -/
def VacantLast (cells : List (Option (Bucket K V) × Location)) : Prop :=
  cells.Pairwise fun p q => p.1 = none → q.1 = none

theorem livePrefix_tail_of_vacant {cell : Option (Bucket K V) × Location}
    {cells : List (Option (Bucket K V) × Location)} (h : VacantLast (cell :: cells)) (hvacant : cell.1 = none) :
    livePrefix cells = [] := by
  rcases cells with - | ⟨⟨- | b, loc⟩, cells⟩
  · rfl
  · rfl
  · have hnone := (List.pairwise_cons.mp h).1 (some b, loc) List.mem_cons_self hvacant
    cases hnone

namespace Chain

theorem livePrefix_locatedCells {c : Chain K V} (h : c.Compact) (i : Nat) :
    livePrefix (c.locatedCells i) = (Slot.chained c).located i := by
  obtain ⟨vacant, hcells⟩ := h
  rw [locatedCells, hcells, Slot.located]
  generalize c.buckets = bs
  -- The walk may begin at any cell.
  suffices hfrom : ∀ n, livePrefix (((packed bs vacant).zipIdx n).map fun e => (e.1, Location.chained i e.2)) =
      (bs.zipIdx n).map fun e => (Location.chained i e.2, e.1) from hfrom 0
  induction bs with
  | nil => cases vacant <;> exact fun n => rfl
  | cons b bs ih => exact fun n => congrArg ((Location.chained i n, b) :: ·) (ih (n + 1))

theorem vacantLast_locatedCells {c : Chain K V} (h : c.Compact) (i : Nat) : VacantLast (c.locatedCells i) := by
  obtain ⟨vacant, hcells⟩ := h
  rw [VacantLast, locatedCells, List.pairwise_map]
  have hpacked : (packed c.buckets vacant).Pairwise fun p q => p = none → q = none := by
    rw [packed, List.pairwise_append, List.pairwise_map]
    refine ⟨List.pairwise_of_forall (by simp), ?_, by simp⟩
    exact List.pairwise_replicate.mpr (Or.inr fun _ => rfl)
  rw [← hcells, ← List.zipIdx_map_fst 0 c.cells.toList] at hpacked
  exact List.pairwise_map.mp hpacked

end Chain

namespace Iter

/-! ### Looking for a bucket -/

/-- What is to come of a chain begun and the slots behind it. -/
def ahead (slots : List (Slot K V × Nat)) (cells : List (Option (Bucket K V) × Location)) :
    List (Location × Bucket K V) :=
  livePrefix cells ++ locatedOf slots

/-- The slots to come are well formed, and the cells left over are those of a packed chain. -/
structure Tidy (slots : List (Slot K V × Nat)) (cells : List (Option (Bucket K V) × Location)) : Prop where
  wellFormed : ∀ s ∈ slots, s.1.WellFormed
  vacantLast : VacantLast cells

/-- A vacant cell, or the end of the cells, is passed without loss. -/
theorem livePrefix_passed {slots : List (Slot K V × Nat)} {cells : List (Option (Bucket K V) × Location)}
    (h : Tidy slots cells) (hlive : ∀ b loc rest, cells ≠ (some b, loc) :: rest) :
    livePrefix cells = [] ∧ livePrefix cells.tail = [] ∧ VacantLast cells.tail := by
  rcases cells with - | ⟨⟨- | b, loc⟩, cells⟩
  · exact ⟨rfl, rfl, List.Pairwise.nil⟩
  · exact ⟨rfl, livePrefix_tail_of_vacant h.vacantLast rfl, (List.pairwise_cons.mp h.vacantLast).2⟩
  · exact absurd rfl (hlive b loc cells)

/-- The search finds the first bucket ahead and leaves the others ahead of it. -/
theorem advance_spec {slots : List (Slot K V × Nat)} {cells : List (Option (Bucket K V) × Location)}
    (h : Tidy slots cells) :
    (advance slots cells).1 = (ahead slots cells).head? ∧
      ahead (advance slots cells).2.1 (advance slots cells).2.2 = (ahead slots cells).tail ∧
      Tidy (advance slots cells).2.1 (advance slots cells).2.2 := by
  fun_induction advance slots cells with
  | case1 slots b loc cells =>
    exact ⟨rfl, rfl, h.wellFormed, (List.pairwise_cons.mp h.vacantLast).2⟩
  | case2 cells hlive =>
    obtain ⟨hcells, htail, hlast⟩ := livePrefix_passed h hlive
    refine ⟨?_, ?_, h.wellFormed, hlast⟩
    · rw [ahead, hcells]
      rfl
    · rw [ahead, ahead, hcells, htail]
      rfl
  | case3 i slots cells hlive ih =>
    obtain ⟨hcells, htail, hlast⟩ := livePrefix_passed h hlive
    have hsame : ahead ((.empty, i) :: slots) cells = ahead slots cells.tail := by
      rw [ahead, ahead, hcells, htail]
      rfl
    rw [hsame]
    exact ih ⟨fun s hs => h.wellFormed s (List.mem_cons_of_mem _ hs), hlast⟩
  | case4 b i slots cells hlive =>
    obtain ⟨hcells, htail, hlast⟩ := livePrefix_passed h hlive
    have hfirst : ahead ((.pair b, i) :: slots) cells = (.primary i, b) :: ahead slots cells.tail := by
      rw [ahead, ahead, hcells, htail]
      rfl
    rw [hfirst]
    exact ⟨rfl, rfl, fun s hs => h.wellFormed s (List.mem_cons_of_mem _ hs), hlast⟩
  | case5 c i slots cells hlive ih =>
    have hwf : (Slot.chained c).WellFormed := h.wellFormed _ List.mem_cons_self
    have hsame : ahead ((.chained c, i) :: slots) cells = ahead slots (c.locatedCells i) := by
      rw [ahead, ahead, (livePrefix_passed h hlive).1, Chain.livePrefix_locatedCells hwf.1]
      rfl
    rw [hsame]
    exact ih ⟨fun s hs => h.wellFormed s (List.mem_cons_of_mem _ hs), Chain.vacantLast_locatedCells hwf.1 i⟩

/-! ### Calls -/

/-- The buckets to come, with their locations. -/
def unseen (it : Iter K V) : List (Location × Bucket K V) := ahead it.slots it.cells

/-- What holds of an iterator between calls: its count is that of the buckets to come. -/
structure Valid (it : Iter K V) : Prop where
  tidy : Tidy it.slots it.cells
  remaining_eq : it.remaining = it.unseen.length

theorem next_of_nil {it : Iter K V} (h : it.Valid) (hunseen : it.unseen = []) : it.next = (none, it) := by
  have hdone : it.remaining = 0 := by rw [h.remaining_eq, hunseen, List.length_nil]
  rw [next, if_pos hdone]

theorem next_of_cons {it : Iter K V} (h : it.Valid) {found : Location × Bucket K V}
    {rest : List (Location × Bucket K V)} (hunseen : it.unseen = found :: rest) :
    ∃ it', it.next = (some found, it') ∧ it'.Valid ∧ it'.table = it.table ∧ it'.unseen = rest := by
  have hcount : it.remaining = rest.length + 1 := by rw [h.remaining_eq, hunseen, List.length_cons]
  obtain ⟨hfound, hrest, htidy⟩ := advance_spec h.tidy
  have hahead : ahead it.slots it.cells = found :: rest := hunseen
  rw [hahead] at hfound hrest
  rcases hadvance : advance it.slots it.cells with ⟨result, slots, cells⟩
  rw [hadvance] at hfound hrest htidy
  obtain rfl : result = some found := hfound
  refine ⟨{ it with slots := slots, cells := cells, remaining := it.remaining - 1 }, ?_, ⟨htidy, ?_⟩, rfl, hrest⟩
  · rw [next, if_neg (by omega), hadvance]
  · show it.remaining - 1 = (ahead slots cells).length
    rw [show ahead slots cells = rest from hrest]
    omega

theorem rest_eq {it : Iter K V} (h : it.Valid) {fuel : Nat} (hfuel : it.unseen.length ≤ fuel) :
    rest fuel it = it.unseen.map fun p => p.2.toPair := by
  induction fuel generalizing it with
  | zero =>
    have hnil : it.unseen = [] := List.eq_nil_of_length_eq_zero (by omega)
    rw [hnil]
    rfl
  | succ fuel ih =>
    rcases hunseen : it.unseen with - | ⟨⟨loc, b⟩, buckets⟩
    · rw [rest, next_of_nil h hunseen]
      rfl
    · obtain ⟨it', hnext, hvalid, -, hrest⟩ := next_of_cons h hunseen
      rw [hunseen, List.length_cons] at hfuel
      have htail := ih hvalid (by rw [hrest]; omega)
      rw [hrest] at htail
      rw [rest, hnext]
      exact congrArg (b.toPair :: ·) htail

theorem toList_eq {it : Iter K V} (h : it.Valid) : it.toList = it.unseen.map fun p => p.2.toPair :=
  rest_eq h (Nat.le_of_eq h.remaining_eq.symm)

theorem map_unseen_iter (t : Table K V) : (t.iter.unseen.map fun p => p.2.toPair) = t.toList := by
  rw [Table.toList, Table.buckets, ← map_snd_locatedOf, List.map_map]
  rfl

theorem valid_iter [BEq K] {t : Table K V} (h : t.LayoutInvariant) : t.iter.Valid where
  tidy := ⟨fun s hs => h.wellFormed s.1 (List.fst_mem_of_mem_zipIdx hs), List.Pairwise.nil⟩
  remaining_eq := by
    rw [← List.length_map (fun p => p.2.toPair), map_unseen_iter, h.length_toList]
    rfl

end Iter

/-- An iterator yields the pairs of the traversal, all of them and in order. -/
theorem Table.toList_iter [BEq K] {t : Table K V} (h : t.LayoutInvariant) : t.iter.toList = t.toList := by
  rw [Iter.toList_eq (Iter.valid_iter h), Iter.map_unseen_iter]

end FlatTable

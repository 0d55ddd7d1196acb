import FlatTable.Chain
import Mathlib.Data.List.Basic

/-!
# Chains as lists

A chain is read only through its list of buckets. As long as the occupied cells come first, pushing appends to that list, and vacating a cell moves the last bucket into the gap. Everything above chains reaches them through these facts.
-/

namespace FlatTable

universe u v

/-! ### Taking an element out of a list -/

/-- The list with its last element moved to the front. -/
def lastToFront {α : Type u} : List α → List α
  | [] => []
  | a :: as => (a :: as).getLast (List.cons_ne_nil a as) :: (a :: as).dropLast

/-- The list without the element at an index, whose place the last element takes. -/
def swapRemove {α : Type u} (l : List α) (i : Nat) : List α := l.take i ++ lastToFront (l.drop (i + 1))

section Lists

variable {α : Type u}

theorem lastToFront_concat (l : List α) (a : α) : lastToFront (l ++ [a]) = a :: l := by
  cases l with
  | nil => rfl
  | cons b l =>
    have hinit : (b :: (l ++ [a])).dropLast = b :: l := by rw [← List.cons_append, List.dropLast_concat]
    simp [lastToFront, hinit]

theorem lastToFront_perm (l : List α) : (lastToFront l).Perm l := by
  rcases List.eq_nil_or_concat l with rfl | ⟨l, a, rfl⟩
  · rfl
  · rw [List.concat_eq_append, lastToFront_concat]
    exact (List.perm_append_singleton a l).symm

theorem swapRemove_append_cons (l r : List α) (a : α) : swapRemove (l ++ a :: r) l.length = l ++ lastToFront r := by
  simp [swapRemove]

theorem swapRemove_perm (l r : List α) (a : α) :
    (a :: swapRemove (l ++ a :: r) l.length).Perm (l ++ a :: r) := by
  rw [swapRemove_append_cons]
  exact (List.perm_middle.symm).trans (((lastToFront_perm r).cons a).append_left l)

theorem modify_append_cons (l r : List α) (a : α) (f : α → α) :
    (l ++ a :: r).modify l.length f = l ++ f a :: r := by
  rw [List.modify_eq_take_cons_drop (by simp)]
  simp

theorem exists_split_of_getElem? {l : List α} {i : Nat} {a : α} (h : l[i]? = some a) :
    ∃ x y, l = x ++ a :: y ∧ x.length = i := by
  obtain ⟨hi, rfl⟩ := List.getElem?_eq_some_iff.mp h
  refine ⟨l.take i, l.drop (i + 1), ?_, List.length_take_of_le (Nat.le_of_lt hi)⟩
  rw [← List.drop_eq_getElem_cons hi, List.take_append_drop]

end Lists

/-! ### The cells of a chain -/

variable {K : Type u} {V : Type v}

/-- The bucket with its value changed. -/
def Bucket.mapValue (f : V → V) (b : Bucket K V) : Bucket K V := { b with value := f b.value }

@[simp] theorem Bucket.mapValue_hash (f : V → V) (b : Bucket K V) : (b.mapValue f).hash = b.hash := rfl

@[simp] theorem Bucket.mapValue_key (f : V → V) (b : Bucket K V) : (b.mapValue f).key = b.key := rfl

/-- Cells that hold the given buckets, followed by vacant ones. -/
def packed (bs : List (Bucket K V)) (vacant : Nat) : List (Option (Bucket K V)) :=
  bs.map some ++ List.replicate vacant none

theorem occupiedPrefix_packed (bs : List (Bucket K V)) (vacant : Nat) : occupiedPrefix (packed bs vacant) = bs := by
  induction bs with
  | nil => cases vacant <;> rfl
  | cons b bs ih => exact congrArg (b :: ·) ih

theorem length_packed (bs : List (Bucket K V)) (vacant : Nat) : (packed bs vacant).length = bs.length + vacant := by
  simp [packed]

theorem packed_concat (bs : List (Bucket K V)) (b : Bucket K V) (vacant : Nat) :
    packed (bs ++ [b]) vacant = bs.map some ++ some b :: List.replicate vacant none := by
  simp [packed]

theorem set_packed_length (bs : List (Bucket K V)) (b : Bucket K V) (vacant : Nat) :
    (packed bs (vacant + 1)).set bs.length (some b) = packed (bs ++ [b]) vacant := by
  rw [packed_concat, packed, List.set_append_right _ _ (by simp)]
  simp [List.replicate_succ]

theorem set_packed (x y : List (Bucket K V)) (a b : Bucket K V) (vacant : Nat) :
    (packed (x ++ a :: y) vacant).set x.length (some b) = packed (x ++ b :: y) vacant := by
  simp [packed]

theorem set_packed_last (bs : List (Bucket K V)) (b : Bucket K V) (vacant : Nat) :
    (packed (bs ++ [b]) vacant).set bs.length none = packed bs (vacant + 1) := by
  simp [packed, List.replicate_succ]

namespace Chain

/-- The occupied cells form a prefix. -/
def Compact (c : Chain K V) : Prop := ∃ vacant, c.cells.toList = packed c.buckets vacant

theorem buckets_of_cells {c : Chain K V} {bs : List (Bucket K V)} {vacant : Nat}
    (h : c.cells.toList = packed bs vacant) : c.buckets = bs := by
  rw [buckets, h, occupiedPrefix_packed]

theorem compact_of_cells {c : Chain K V} {bs : List (Bucket K V)} {vacant : Nat}
    (h : c.cells.toList = packed bs vacant) : c.Compact :=
  ⟨vacant, by rw [h, buckets_of_cells h]⟩

/-- The place of the first vacant cell is the number of occupied ones before it. -/
theorem length_eq (c : Chain K V) : c.length = c.buckets.length := by
  obtain ⟨⟨cells⟩⟩ := c
  rw [length, buckets, List.findIdx_toArray]
  induction cells with
  | nil => rfl
  | cons cell cells ih => cases cell <;> simp [List.findIdx_cons, occupiedPrefix, ih]

theorem get?_eq {c : Chain K V} (h : c.Compact) (i : Nat) : c.get? i = c.buckets[i]? := by
  obtain ⟨vacant, hcells⟩ := h
  rw [get?, ← Array.getElem?_toList, hcells, packed, List.getElem?_append]
  split
  · rename_i hi
    simp only [List.length_map] at hi
    simp [hi]
  · rename_i hi
    simp only [List.length_map, Nat.not_lt] at hi
    rw [List.getElem?_eq_none hi, List.getElem?_replicate]
    split <;> rfl

theorem compact_ofBucket (b : Bucket K V) : (ofBucket b).Compact := by
  have hcells : (ofBucket b).cells.toList = packed [b] 1 := rfl
  exact compact_of_cells hcells

/-- A full chain is given two more cells, of which one stays vacant. -/
theorem cells_push {c : Chain K V} {bs : List (Bucket K V)} {vacant : Nat} (h : c.cells.toList = packed bs vacant)
    (b : Bucket K V) : (c.push b).cells.toList = packed (bs ++ [b]) (if vacant = 0 then 1 else vacant - 1) := by
  have hsize : c.cells.size = bs.length + vacant := by
    rw [← Array.length_toList, h, length_packed]
  rw [push, length_eq, buckets_of_cells h]
  cases vacant with
  | zero =>
    rw [if_pos (by omega), if_pos rfl, Array.toList_setIfInBounds, Array.toList_push, Array.toList_push, h,
      ← set_packed_length]
    simp [packed]
  | succ left =>
    rw [if_neg (by omega), if_neg (by omega), Array.toList_setIfInBounds, h, set_packed_length]
    rfl

theorem buckets_push {c : Chain K V} (h : c.Compact) (b : Bucket K V) : (c.push b).buckets = c.buckets ++ [b] := by
  obtain ⟨vacant, hcells⟩ := h
  exact buckets_of_cells (cells_push hcells b)

theorem compact_push {c : Chain K V} (h : c.Compact) (b : Bucket K V) : (c.push b).Compact := by
  obtain ⟨vacant, hcells⟩ := h
  exact compact_of_cells (cells_push hcells b)

theorem cells_swapRemove {c : Chain K V} (h : c.Compact) {i : Nat} (hi : i < c.buckets.length) :
    ∃ vacant, (c.swapRemove i).cells.toList = packed (FlatTable.swapRemove c.buckets i) vacant := by
  obtain ⟨x, y, hsplit, rfl⟩ := exists_split_of_getElem? (List.getElem?_eq_getElem hi)
  generalize c.buckets[x.length] = b at hsplit
  obtain ⟨vacant, hcells⟩ := id h
  refine ⟨vacant + 1, ?_⟩
  rw [swapRemove, length_eq]
  rcases List.eq_nil_or_concat y with rfl | ⟨y, last, rfl⟩
  · rw [if_pos (by simp [hsplit])]
    rw [Array.toList_setIfInBounds, hcells, hsplit, swapRemove_append_cons, set_packed_last]
    simp [lastToFront]
  · rw [List.concat_eq_append] at hsplit
    have hlast : c.buckets.length - 1 = (x ++ b :: y).length := by simp [hsplit]
    rw [if_neg (by rw [hlast]; simp)]
    have hmoved : c.get? (x ++ b :: y).length = some last := by
      rw [get?_eq h, hsplit]
      simp
    rw [hlast, hmoved, Array.toList_setIfInBounds, Array.toList_setIfInBounds, hcells, hsplit,
      swapRemove_append_cons, lastToFront_concat]
    rw [show x ++ b :: (y ++ [last]) = (x ++ b :: y) ++ [last] by simp, set_packed_last, set_packed]

theorem buckets_swapRemove {c : Chain K V} (h : c.Compact) {i : Nat} (hi : i < c.buckets.length) :
    (c.swapRemove i).buckets = FlatTable.swapRemove c.buckets i := by
  obtain ⟨vacant, hcells⟩ := cells_swapRemove h hi
  exact buckets_of_cells hcells

theorem compact_swapRemove {c : Chain K V} (h : c.Compact) {i : Nat} (hi : i < c.buckets.length) :
    (c.swapRemove i).Compact := by
  obtain ⟨vacant, hcells⟩ := cells_swapRemove h hi
  exact compact_of_cells hcells

theorem modify_packed (bs : List (Bucket K V)) (vacant i : Nat) (f : V → V) :
    (packed bs vacant).modify i (Option.map (Bucket.mapValue f)) = packed (bs.modify i (Bucket.mapValue f)) vacant := by
  induction bs generalizing i with
  | nil =>
    apply List.ext_getElem?
    intro j
    rw [List.modify_nil, List.getElem?_modify, packed, List.map_nil, List.nil_append, List.getElem?_replicate]
    split <;> split <;> rfl
  | cons b bs ih =>
    cases i with
    | zero => rfl
    | succ i => exact congrArg (some b :: ·) (ih i)

theorem cells_modifyValue {c : Chain K V} {bs : List (Bucket K V)} {vacant : Nat}
    (h : c.cells.toList = packed bs vacant) (i : Nat) (f : V → V) :
    (c.modifyValue i f).cells.toList = packed (bs.modify i (Bucket.mapValue f)) vacant := by
  rw [modifyValue, Array.toList_modify, h]
  exact modify_packed bs vacant i f

theorem buckets_modifyValue {c : Chain K V} (h : c.Compact) (i : Nat) (f : V → V) :
    (c.modifyValue i f).buckets = c.buckets.modify i (Bucket.mapValue f) := by
  obtain ⟨vacant, hcells⟩ := h
  exact buckets_of_cells (cells_modifyValue hcells i f)

theorem compact_modifyValue {c : Chain K V} (h : c.Compact) (i : Nat) (f : V → V) : (c.modifyValue i f).Compact := by
  obtain ⟨vacant, hcells⟩ := h
  exact compact_of_cells (cells_modifyValue hcells i f)

theorem modifyValue_eq_self {c : Chain K V} (h : c.Compact) {i : Nat} (hi : c.buckets.length ≤ i) (f : V → V) :
    c.modifyValue i f = c := by
  obtain ⟨vacant, hcells⟩ := h
  have hsame := cells_modifyValue hcells i f
  rw [List.modify_eq_self hi, ← hcells] at hsame
  exact congrArg Chain.mk (Array.toList_inj.mp hsame)

theorem single?_eq {c : Chain K V} (h : c.Compact) :
    c.single? = if c.buckets.length = 1 then c.buckets[0]? else none := by
  rw [single?, length_eq, get?_eq h]

end Chain

end FlatTable

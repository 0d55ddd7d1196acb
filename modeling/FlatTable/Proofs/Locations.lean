import FlatTable.Proofs.Layout

/-!
# The live locations in order

A traversal of a slot array lists the live locations with their buckets, ascending by slot and then by cell. An array has exactly one, and writing to the value at a location changes that entry of it and nothing else.
-/

namespace FlatTable

universe u v

variable {K : Type u} {V : Type v}

/-- Whether a location comes before another: in a lower slot, or in a lower cell of the same. -/
def Location.Precedes (loc other : Location) : Prop :=
  loc.slot < other.slot ∨ loc.slot = other.slot ∧ loc.cell < other.cell

/-- Every live location of the array is listed with its bucket, in ascending order and so only once. -/
structure IsTraversal (slots : Array (Slot K V)) (ls : List (Location × Bucket K V)) : Prop where
  ascending : ls.Pairwise fun p q => p.1.Precedes q.1
  mem_iff : ∀ loc b, (loc, b) ∈ ls ↔ bucketAt? slots loc = some b

/-! ### One slot -/

theorem pairwise_zipIdx {α : Type u} (l : List α) : l.zipIdx.Pairwise fun p q => p.2 < q.2 := by
  have hindices : (l.zipIdx.map Prod.snd).Pairwise (· < ·) := by
    rw [List.zipIdx_map_snd]
    exact List.pairwise_lt_range'
  exact List.pairwise_map.mp hindices

/-- The buckets of slot `i` with their locations. -/
def Slot.located (i : Nat) : Slot K V → List (Location × Bucket K V)
  | .empty => []
  | .pair b => [(.primary i, b)]
  | .chained c => c.buckets.zipIdx.map fun (b, j) => (.chained i j, b)

namespace Slot

theorem map_snd_located (i : Nat) (s : Slot K V) : (s.located i).map Prod.snd = s.buckets := by
  cases s with
  | empty => rfl
  | pair b => rfl
  | chained c =>
    rw [located, List.map_map]
    exact List.zipIdx_map_fst 0 c.buckets

theorem slot_of_mem_located {i : Nat} {s : Slot K V} {p : Location × Bucket K V} (h : p ∈ s.located i) :
    p.1.slot = i := by
  cases s with
  | empty => exact absurd h List.not_mem_nil
  | pair b =>
    obtain rfl := List.mem_singleton.mp h
    rfl
  | chained c =>
    obtain ⟨⟨b, j⟩, -, rfl⟩ := List.mem_map.mp h
    rfl

theorem mem_located {s : Slot K V} (h : s.WellFormed) {i : Nat} {loc : Location} {b : Bucket K V} :
    (loc, b) ∈ s.located i ↔ loc.slot = i ∧ s.bucketAt? loc = some b := by
  cases s with
  | empty => simp [located, bucketAt?]
  | pair first => cases loc <;> simp [located, bucketAt?, Location.slot, eq_comm]
  | chained c => cases loc with
    | primary s => simp [located, bucketAt?]
    | chained s j =>
      show _ ↔ s = i ∧ c.get? j = some b
      rw [Chain.get?_eq h.1, located, List.mem_map]
      constructor
      · rintro ⟨⟨b', j'⟩, hmem, heq⟩
        obtain ⟨⟨rfl, rfl⟩, rfl⟩ := by simpa using heq
        exact ⟨rfl, List.mem_zipIdx_iff_getElem?.mp hmem⟩
      · rintro ⟨rfl, hj⟩
        exact ⟨(b, j), List.mem_zipIdx_iff_getElem?.mpr hj, rfl⟩

theorem pairwise_located (i : Nat) (s : Slot K V) : (s.located i).Pairwise fun p q => p.1.Precedes q.1 := by
  cases s with
  | empty => exact List.Pairwise.nil
  | pair b => exact List.pairwise_singleton _ _
  | chained c =>
    rw [located, List.pairwise_map]
    refine (pairwise_zipIdx c.buckets).imp ?_
    intro p q hlt
    exact Or.inr ⟨rfl, hlt⟩

end Slot

theorem Chain.get?_modifyValue (c : Chain K V) (i j : Nat) (f : V → V) :
    (c.modifyValue i f).get? j = if i = j then (c.get? j).map (Bucket.mapValue f) else c.get? j := by
  rw [get?, modifyValue, Array.getElem?_modify, get?]
  split
  · rcases c.cells[j]? with - | - | b <;> rfl
  · rfl

/-! ### A slot array -/

/-- The traversal of some slots with their indices. -/
def locatedOf (slots : List (Slot K V × Nat)) : List (Location × Bucket K V) :=
  slots.flatMap fun (s, i) => s.located i

theorem map_snd_locatedOf (slots : Array (Slot K V)) :
    (locatedOf slots.toList.zipIdx).map Prod.snd = bucketsOf slots := by
  rw [locatedOf, List.map_flatMap, bucketsOf]
  simp only [Slot.map_snd_located]
  conv_rhs => rw [← List.zipIdx_map_fst 0 slots.toList, List.flatMap_map]

theorem isTraversal_locatedOf {slots : Array (Slot K V)} (h : AllWellFormed slots) :
    IsTraversal slots (locatedOf slots.toList.zipIdx) where
  ascending := by
    rw [locatedOf, List.pairwise_flatMap]
    refine ⟨fun p _ => Slot.pairwise_located p.2 p.1, ?_⟩
    refine (pairwise_zipIdx slots.toList).imp ?_
    intro s s' hlt p hp q hq
    left
    rw [Slot.slot_of_mem_located hp, Slot.slot_of_mem_located hq]
    exact hlt
  mem_iff loc b := by
    rw [locatedOf, List.mem_flatMap, bucketAt?, Option.bind_eq_some_iff]
    constructor
    · rintro ⟨⟨s, i⟩, hs, hmem⟩
      have hi := List.mem_zipIdx_iff_getElem?.mp hs
      rw [Array.getElem?_toList] at hi
      obtain ⟨rfl, hat⟩ := (Slot.mem_located (h s (List.fst_mem_of_mem_zipIdx hs))).mp hmem
      exact ⟨s, hi, hat⟩
    · rintro ⟨s, hs, hat⟩
      rw [← Array.getElem?_toList] at hs
      exact ⟨(s, loc.slot), List.mem_zipIdx_iff_getElem?.mpr hs,
        (Slot.mem_located (h s (List.mem_of_getElem? hs))).mpr ⟨rfl, hat⟩⟩

theorem bucketAt?_modify (slots : Array (Slot K V)) (loc loc' : Location) (f : V → V) :
    bucketAt? (slots.modify loc.slot (Slot.modifyValue f loc)) loc' =
      if loc' = loc then (bucketAt? slots loc').map (Bucket.mapValue f) else bucketAt? slots loc' := by
  rw [bucketAt?, Array.getElem?_modify, bucketAt?]
  by_cases hslot : loc.slot = loc'.slot
  · rw [if_pos hslot]
    rcases slots[loc'.slot]? with - | s
    · simp
    · show Slot.bucketAt? loc' (s.modifyValue f loc) = if loc' = loc then (Slot.bucketAt? loc' s).map _ else _
      cases s with
      | empty => cases loc <;> cases loc' <;> simp [Slot.modifyValue, Slot.bucketAt?]
      | pair b => cases loc <;> cases loc' <;> simp_all [Slot.modifyValue, Slot.bucketAt?, Location.slot, Bucket.mapValue]
      | chained c =>
        cases loc <;> cases loc' <;>
          simp_all [Slot.modifyValue, Slot.bucketAt?, Location.slot, Chain.get?_modifyValue, eq_comm]
  · rw [if_neg hslot, if_neg]
    rintro rfl
    exact hslot rfl

namespace IsTraversal

variable {slots : Array (Slot K V)} {ls ls' x y : List (Location × Bucket K V)} {loc : Location} {b : Bucket K V}

theorem not_precedes_self (loc : Location) : ¬loc.Precedes loc := by
  rintro (h | ⟨-, h⟩) <;> exact Nat.lt_irrefl _ h

theorem nodup (h : IsTraversal slots ls) : ls.Nodup := by
  refine h.ascending.imp ?_
  rintro p _ hlt rfl
  exact not_precedes_self p.1 hlt

theorem unique (h : IsTraversal slots ls) (h' : IsTraversal slots ls') : ls = ls' := by
  have hperm : ls.Perm ls' := by
    rw [List.perm_ext_iff_of_nodup h.nodup h'.nodup]
    rintro ⟨loc, b⟩
    rw [h.mem_iff, h'.mem_iff]
  refine hperm.eq_of_pairwise ?_ h.ascending h'.ascending
  intro p q _ _ hpq hqp
  rcases hpq with hpq | ⟨hpq, hpq'⟩ <;> rcases hqp with hqp | ⟨hqp, hqp'⟩ <;> omega

/-- The traversal is what its array's slots hold one after the other. -/
theorem map_snd (hwf : AllWellFormed slots) (h : IsTraversal slots ls) : ls.map Prod.snd = bucketsOf slots := by
  rw [h.unique (isTraversal_locatedOf hwf), map_snd_locatedOf]

theorem modifyValue (h : IsTraversal slots (x ++ (loc, b) :: y)) (f : V → V) :
    IsTraversal (slots.modify loc.slot (Slot.modifyValue f loc)) (x ++ (loc, b.mapValue f) :: y) := by
  obtain ⟨hx, hy, hbefore⟩ := List.pairwise_append.mp h.ascending
  obtain ⟨hafter, hy⟩ := List.pairwise_cons.mp hy
  refine ⟨?_, fun loc' b' => ?_⟩
  · rw [List.pairwise_append, List.pairwise_cons]
    refine ⟨hx, ⟨hafter, hy⟩, fun p hp q hq => ?_⟩
    rcases List.mem_cons.mp hq with rfl | hq
    · exact hbefore p hp (loc, b) List.mem_cons_self
    · exact hbefore p hp q (List.mem_cons_of_mem _ hq)
  · have hmem := h.mem_iff loc' b'
    rw [bucketAt?_modify, List.mem_append, List.mem_cons]
    rw [List.mem_append, List.mem_cons] at hmem
    by_cases hloc : loc' = loc
    · -- No other entry of the list is for the location that was written to.
      subst hloc
      have hat := (h.mem_iff loc' b).mp (by simp)
      rw [if_pos rfl, hat, Option.map_some, Option.some.injEq]
      constructor
      · rintro (hp | hp | hp)
        · exact absurd (hbefore _ hp (loc', b) List.mem_cons_self) (not_precedes_self loc')
        · exact (Prod.mk.inj hp).2.symm
        · exact absurd (hafter _ hp) (not_precedes_self loc')
      · rintro rfl
        exact Or.inr (Or.inl rfl)
    · rw [if_neg hloc, ← hmem]
      simp [hloc]

end IsTraversal

end FlatTable

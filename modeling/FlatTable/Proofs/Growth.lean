import FlatTable.Proofs.Extent
import FlatTable.Proofs.Sessions

/-!
# Growth

Storing a pair under an absent key changes the extent of a table as `Extent.stored` says; no other operation raises the count, the capacity or the threshold. A run is followed with the greatest count that it has reached, from which its capacity can be told.
-/

namespace FlatTable

namespace Table

/-! ### The extent of a table -/

section Extents

universe u v

variable {K : Type u} {V : Type v}

def extent (t : Table K V) : Extent := ⟨t.size, t.capacity, t.maxSize⟩

theorem extent_build (hash : K → UInt64) (config : Config) (id : Nat) : (build hash config id : Table K V).extent =
    ⟨0, config.slotCapacity, config.loadFactor.maxSize config.slotCapacity⟩ := by
  rw [extent, capacity, build, size_emptySlots]

theorem extent_grow (t : Table K V) : t.grow.extent = t.extent.doubled t.loadFactor := by
  rcases Nat.lt_or_ge t.slots.size maxCapacity with hsmall | hlarge
  · have hdoubled : t.extent.doubled t.loadFactor = ⟨t.size, 2 * t.capacity, t.loadFactor.maxSize (2 * t.capacity)⟩ :=
      if_neg (Nat.not_le.mpr hsmall)
    rw [hdoubled, extent, size_grow, capacity_grow hsmall, grow, if_neg (Nat.not_le.mpr hsmall)]
    rfl
  · have hdoubled : t.extent.doubled t.loadFactor = ⟨t.size, t.capacity, wordLimit - 1⟩ := if_pos hlarge
    rw [hdoubled, grow, if_pos hlarge]
    rfl

theorem extent_addNew (t : Table K V) (hash : UInt32) (k : K) (v : V) :
    (t.addNew hash k v).1.extent = { t.extent with size := t.size + 1 } := by
  have hcapacity : (t.addNew hash k v).1.capacity = t.capacity := size_place t.slots _
  rw [extent, hcapacity]
  rfl

variable [BEq K] {t : Table K V} {k : K}

theorem extent_insert (hnone : t.locate? k = none) (v : V) :
    (t.insert k v).2.extent = t.extent.stored t.loadFactor := by
  rw [insert_of_locate?_eq_none hnone]
  dsimp only
  rw [settled, Extent.stored]
  split
  · rw [extent_grow, extent_addNew, Extent.doubled_withSize]
    exact (if_pos ‹_›).symm
  · rw [extent_addNew]
    exact (if_neg ‹_›).symm

/-- Whether a table grows before or after the new pair is placed makes no difference to its extent. -/
theorem extent_getOrInsert (hnone : t.locate? k = none) (v : V) :
    (t.getOrInsert k (some v)).2.extent = t.extent.stored t.loadFactor := by
  rw [getOrInsert_of_locate?_eq_none hnone]
  dsimp only
  rw [extent_addNew, madeReady, Extent.stored]
  split
  · rw [extent_grow, size_grow]
    exact (if_pos ‹_›).symm
  · exact (if_neg ‹_›).symm

/-- Storing pairs with new and distinct keys. -/
theorem extent_extend_of_distinct [EquivBEq K] {m : PairMap K V} (h : t.Models m) (pairs : List (K × V))
    (hdistinct : PairMap.Distinct (sameKey t.hash) (m.pairs ++ pairs)) :
    (t.extend pairs).extent = (Extent.stored t.loadFactor)^[pairs.length] t.extent := by
  induction pairs generalizing t m with
  | nil => rfl
  | cons p pairs ih =>
    have hothers := PairMap.others_of_split (sameKey_equivalence t.hash) hdistinct
      ((sameKey_equivalence t.hash).refl p.1)
    have hm : ∀ q ∈ m.pairs, sameKey t.hash q.1 p.1 = false := fun q hq => hothers q (List.mem_append_left _ hq)
    have hnone := locate?_eq_none_of_find? h (PairMap.find?_eq_none hm)
    have hmodels := (models_insert h p.1 p.2).2
    have hkeeps := keeps_insert t p.1 p.2
    rw [PairMap.insert_of_not_any hm] at hmodels
    have hrest := ih hmodels (by rw [hkeeps.hash, List.append_assoc]; exact hdistinct)
    rw [hkeeps.loadFactor, extent_insert hnone] at hrest
    rw [List.length_cons, Function.iterate_succ_apply]
    exact hrest

/-! ### Operations that let nothing grow -/

omit [BEq K] in
theorem shrinks_modifyValueAt (t : Table K V) (loc : Location) (f : V → V) :
    t.extent.Shrinks (t.modifyValueAt loc f).extent :=
  ⟨Array.size_modify, rfl, Nat.le_refl _⟩

omit [BEq K] in
theorem shrinks_removeAt? (t : Table K V) (loc : Location) : t.extent.Shrinks (t.removeAt? loc).2.extent := by
  rw [removeAt?]
  split
  · exact Extent.Shrinks.refl t.extent
  · exact ⟨Array.size_modify, rfl, Nat.sub_le t.size 1⟩

theorem shrinks_removeEntry (t : Table K V) (k : K) : t.extent.Shrinks (t.removeEntry k).2.extent := by
  rw [removeEntry]
  split
  · exact Extent.Shrinks.refl t.extent
  · exact shrinks_removeAt? t _

omit [BEq K] in
theorem shrinks_clear (t : Table K V) : t.extent.Shrinks t.clear.extent :=
  ⟨size_emptySlots t.slots.size, rfl, Nat.zero_le t.size⟩

end Extents

end Table

namespace Cursor

variable {K V : Type}

theorem shrinks_modifyLast (c : Cursor K V) (f : V → V) : c.table.extent.Shrinks (c.modifyLast f).table.extent :=
  modifyLast_preserves (P := fun t => c.table.extent.Shrinks t.extent)
    (fun t loc f h => h.trans (Table.shrinks_modifyValueAt t loc f)) f (Extent.Shrinks.refl _)

theorem shrinks_remove (c : Cursor K V) : c.table.extent.Shrinks c.remove.2.table.extent :=
  remove_preserves (P := fun t => c.table.extent.Shrinks t.extent)
    (fun t loc h => h.trans (Table.shrinks_removeAt? t loc)) (Extent.Shrinks.refl _)

theorem shrinks_walk {t : Table K V} {c : Cursor K V} (h : c.Walk t) : t.extent.Shrinks c.table.extent := by
  induction h with
  | start => exact Extent.Shrinks.refl _
  | next _ ih => rwa [table_next]
  | write _ f ih => exact ih.trans (shrinks_modifyLast _ f)
  | remove _ ih => exact ih.trans (shrinks_remove _)

end Cursor

namespace Table

/-! ### Runs -/

section Runs

variable {K V : Type} [BEq K]

omit [BEq K] in
theorem shrinks_retain {σ : Type} (t : Table K V) (f : Callback σ K V) (s : σ) :
    t.extent.Shrinks (t.retain f s).2.extent :=
  Cursor.retain_preserves (P := fun u => t.extent.Shrinks u.extent)
    (fun u loc f h => h.trans (shrinks_modifyValueAt u loc f)) (fun u loc h => h.trans (shrinks_removeAt? u loc))
    f t.size s (Extent.Shrinks.refl t.extent)

/-- An operation that stores pairs, changes values or takes pairs out, and does not abort between growing and storing. -/
inductive Changes (t : Table K V) : Table K V → Prop
  | insert (k : K) (v : V) : Changes t (t.insert k v).2
  | extend (pairs : List (K × V)) : Changes t (t.extend pairs)
  | getOrInsert (k : K) (v : V) : Changes t (t.getOrInsert k (some v)).2
  | write (loc : Location) (f : V → V) : Changes t (t.modifyValueAt loc f)
  | remove (k : K) : Changes t (t.remove k).2
  | removeEntry (k : K) : Changes t (t.removeEntry k).2
  | retain {σ : Type} (f : Callback σ K V) (s : σ) : Changes t (t.retain f s).2
  | cursor {c : Cursor K V} (h : c.Walk t) : Changes t c.table
  | clear : Changes t t.clear

/-- What operations lead to from a table, with the greatest count that was reached on the way. -/
inductive Run (first : Table K V) : (peak : Nat) → Table K V → Prop
  | start : Run first first.size first
  | step {peak : Nat} {t u : Table K V} (h : Run first peak t) (hchanges : t.Changes u) :
      Run first (max peak u.size) u

theorem leads_of_changes {t u : Table K V} (h : t.Changes u) : t.Leads u := by
  cases h with
  | insert k v => exact .insert k v
  | extend pairs => exact .extend pairs
  | getOrInsert k v => exact .getOrInsert k (some v)
  | write loc f => exact .write loc f
  | remove k => exact .remove k
  | removeEntry k => exact .removeEntry k
  | retain f s => exact .retain f s
  | cursor h => exact .cursor h
  | clear => exact .clear

variable {t u : Table K V} {start peak : Nat}

omit [BEq K] in
theorem size_of_stored (hextent : u.extent = t.extent.stored t.loadFactor) : u.size = t.size + 1 :=
  (congrArg Extent.size hextent).trans (Extent.size_stored _ _)

omit [BEq K] in
theorem governed_of_stored (hextent : u.extent = t.extent.stored t.loadFactor)
    (h : t.extent.Governed t.loadFactor start peak) : u.extent.Governed t.loadFactor start (max peak u.size) := by
  rw [hextent, size_of_stored hextent]
  exact Extent.governed_stored h

theorem governed_insert (h : t.extent.Governed t.loadFactor start peak) (k : K) (v : V) :
    (t.insert k v).2.extent.Governed t.loadFactor start (max peak (t.insert k v).2.size) := by
  rcases hloc : t.locate? k with - | loc
  · exact governed_of_stored (extent_insert hloc v) h
  · rw [insert_of_locate?_eq_some hloc]
    exact Extent.governed_of_shrinks (shrinks_modifyValueAt t loc _) h

theorem governed_getOrInsert (h : t.extent.Governed t.loadFactor start peak) (k : K) (v : V) :
    (t.getOrInsert k (some v)).2.extent.Governed t.loadFactor start (max peak (t.getOrInsert k (some v)).2.size) := by
  rcases hloc : t.locate? k with - | loc
  · exact governed_of_stored (extent_getOrInsert hloc v) h
  · rw [getOrInsert, hloc]
    exact Extent.governed_of_shrinks (Extent.Shrinks.refl t.extent) h

theorem size_le_insert (t : Table K V) (k : K) (v : V) : t.size ≤ (t.insert k v).2.size := by
  rcases hloc : t.locate? k with - | loc
  · rw [size_of_stored (extent_insert hloc v)]
    exact Nat.le_succ t.size
  · rw [insert_of_locate?_eq_some hloc]
    exact Nat.le_refl _

theorem size_le_extend (t : Table K V) (pairs : List (K × V)) : t.size ≤ (t.extend pairs).size := by
  induction pairs generalizing t with
  | nil => exact Nat.le_refl _
  | cons p pairs ih => exact (size_le_insert t p.1 p.2).trans (ih (t.insert p.1 p.2).2)

variable [EquivBEq K]

/-- While pairs are stored one after the other the count only rises, so the last count is the greatest. -/
theorem governed_extend (h : t.extent.Governed t.loadFactor start peak) (pairs : List (K × V)) :
    (t.extend pairs).extent.Governed t.loadFactor start (max peak (t.extend pairs).size) := by
  induction pairs generalizing t peak with
  | nil => exact Extent.governed_of_shrinks (Extent.Shrinks.refl t.extent) h
  | cons p pairs ih =>
    have hfirst := governed_insert h p.1 p.2
    rw [← (keeps_insert t p.1 p.2).loadFactor] at hfirst
    have hrest := ih hfirst
    have hrises := size_le_extend (t.insert p.1 p.2).2 pairs
    rw [(keeps_insert t p.1 p.2).loadFactor, Nat.max_assoc, Nat.max_eq_right hrises] at hrest
    exact hrest

theorem governed_of_changes (hchanges : t.Changes u) (h : t.extent.Governed t.loadFactor start peak) :
    u.extent.Governed t.loadFactor start (max peak u.size) := by
  cases hchanges with
  | insert k v => exact governed_insert h k v
  | extend pairs => exact governed_extend h pairs
  | getOrInsert k v => exact governed_getOrInsert h k v
  | write loc f => exact Extent.governed_of_shrinks (shrinks_modifyValueAt t loc f) h
  | remove k => exact Extent.governed_of_shrinks (shrinks_removeEntry t k) h
  | removeEntry k => exact Extent.governed_of_shrinks (shrinks_removeEntry t k) h
  | retain f s => exact Extent.governed_of_shrinks (shrinks_retain t f s) h
  | cursor hwalk => exact Extent.governed_of_shrinks (Cursor.shrinks_walk hwalk) h
  | clear => exact Extent.governed_of_shrinks (shrinks_clear t) h

theorem keeps_of_run {first : Table K V} (h : first.Run peak t) : first.Keeps t := by
  induction h with
  | start => exact Keeps.refl first
  | step _ hchanges ih => exact ih.trans (keeps_of_leads (leads_of_changes hchanges))

theorem governed_of_run {first : Table K V} (hfirst : first.extent.Governed first.loadFactor start first.size)
    (h : first.Run peak t) : t.extent.Governed first.loadFactor start peak := by
  induction h with
  | start => exact hfirst
  | step hrun hchanges ih =>
    rw [← (keeps_of_run hrun).loadFactor] at ih ⊢
    exact governed_of_changes hchanges ih

omit [EquivBEq K] in
/-- Fewer pairs than slots leave a slot empty. -/
theorem exists_empty_slot (h : t.LayoutInvariant) (hsize : t.size < t.capacity) :
    ∃ i < t.capacity, t.slots[i]? = some .empty := by
  by_contra hnone
  have hfull : ∀ n ∈ t.slots.toList.map fun s => s.buckets.length, 1 ≤ n := by
    intro n hn
    obtain ⟨s, hs, rfl⟩ := List.mem_map.mp hn
    obtain ⟨i, hi, hget⟩ := Array.mem_iff_getElem.mp (Array.mem_toList_iff.mp hs)
    by_contra hshort
    have hnil : s.buckets = [] := List.eq_nil_of_length_eq_zero (by omega)
    rw [Slot.eq_empty_of_buckets (h.wellFormed s hs) hnil] at hget
    exact hnone ⟨i, hi, by rw [Array.getElem?_eq_getElem hi, hget]⟩
  have hlength := List.length_le_sum_of_one_le _ hfull
  rw [List.length_map, ← List.length_flatMap, Array.length_toList] at hlength
  have hcount : t.size = (t.slots.toList.flatMap Slot.buckets).length := h.size_eq
  have hcapacity : t.capacity = t.slots.size := rfl
  omega

/-- Until a table gives up growing, its capacity is that of its making or the least power of two whose threshold is not below the greatest count so far, whichever is larger. A load factor below one half may start with thresholds of zero; then, too, there are fewer pairs than slots and at most sixty-four slots for each pair. -/
theorem growth_policy (hash : K → UInt64) {config : Config} (hvalid : config.validate = .ok ()) (id : Nat) :
    ∃ first : Table K V, create hash config id = .ok first ∧ first.capacity = config.slotCapacity ∧
      ∀ {peak : Nat} {t : Table K V}, first.Run peak t → ¬t.Saturated →
        (1 / 2 ≤ config.loadFactor.value ∨ 1 ≤ first.maxSize →
          t.size ≤ t.maxSize ∧
          ∃ c, IsLeast {c : Nat | (∃ n, c = 2 ^ n) ∧ peak ≤ min (c - 1) ⌊(c : ℚ) * config.loadFactor.value⌋₊} c ∧
            t.capacity = max first.capacity c) ∧
        t.size < t.capacity ∧ (∃ i < t.capacity, t.slots[i]? = some .empty) ∧
        t.capacity ≤ max first.capacity (64 * peak) := by
  have hvalidFactor := isValid_of_validate hvalid
  have hcreate : create hash config id = .ok (build hash config id : Table K V) := by rw [create, hvalid]
  have hcapacity : (build hash config id : Table K V).capacity = config.slotCapacity := size_emptySlots _
  refine ⟨build hash config id, hcreate, hcapacity, ?_⟩
  intro peak t hrun hgrows
  have hsound := sound_of_keeps (sound_of_create hcreate) (keeps_of_run hrun)
  have hfirst : (build hash config id : Table K V).extent.Governed config.loadFactor config.slotCapacity 0 := by
    rw [extent_build]
    exact Or.inr (Extent.fits_start _ (Nat.pos_of_isPowerOfTwo (Nat.isPowerOfTwo_nextPowerOfTwo _)))
  have hfits : t.extent.Fits config.loadFactor config.slotCapacity peak :=
    (governed_of_run hfirst hrun).resolve_left hgrows
  rw [hcapacity]
  refine ⟨fun hdense => ?_, hfits.size_lt, exists_empty_slot hsound.layout hfits.size_lt, hfits.capacity_le hvalidFactor⟩
  have hroomy : config.loadFactor.Roomy config.slotCapacity :=
    hdense.elim (fun hhalf => LoadFactor.roomy_of_half_le hvalidFactor hhalf _) Or.inl
  refine ⟨?_, ?_⟩
  · have hroom := hfits.room hroomy
    rw [← hfits.maxSize_eq] at hroom
    exact hfits.size_le.trans hroom
  · obtain ⟨c, hleast, hmax⟩ := hfits.isLeast hroomy hsound.layout.capacity_pow
    simp only [LoadFactor.maxSize_eq_floor hvalidFactor] at hleast
    exact ⟨c, hleast, hmax⟩

/-- Three pairs whose keys collide, one of them taken out again, in a table that starts with one slot and a threshold of zero. -/
theorem growth_policy_from_one : ∃ first t : Table Nat Nat,
    create (fun _ => 7) ⟨1, .standard⟩ 0 = .ok first ∧ first.maxSize = 0 ∧ first.Run 3 t ∧ t.size = 2 ∧
      t.size ≤ t.maxSize ∧ (∃ i < t.capacity, t.slots[i]? = some .empty) ∧
      ∃ c, IsLeast {c : Nat | (∃ n, c = 2 ^ n) ∧
        3 ≤ min (c - 1) ⌊(c : ℚ) * LoadFactor.standard.value⌋₊} c ∧ t.capacity = max first.capacity c := by
  have hvalid : (Config.mk 1 .standard).validate = .ok () := by decide
  obtain ⟨first, hfirst, -, hruns⟩ := growth_policy (V := Nat) (fun _ : Nat => 7) hvalid 0
  have hmade : first = build (fun _ => 7) ⟨1, .standard⟩ 0 := (Except.ok.inj hfirst).symm
  have hrun : first.Run 3 ((first.extend [(1, 10), (2, 20), (3, 30)]).remove 1).2 := by
    have hsteps := (Run.start.step (.extend [(1, 10), (2, 20), (3, 30)])).step (u := ((first.extend _).remove 1).2)
      (.remove 1)
    have hpeak : max (max first.size (first.extend [(1, 10), (2, 20), (3, 30)]).size)
        ((first.extend [(1, 10), (2, 20), (3, 30)]).remove 1).2.size = 3 := by
      rw [hmade]
      decide +kernel
    rwa [hpeak] at hsteps
  have hgrows : ¬((first.extend [(1, 10), (2, 20), (3, 30)]).remove 1).2.Saturated := by
    rw [hmade]
    intro hsaturated
    exact absurd hsaturated.1 (by decide +kernel)
  obtain ⟨hdense, -, hempty, -⟩ := hruns hrun hgrows
  obtain ⟨hroom, hleast⟩ := hdense (Or.inl LoadFactor.half_le_standard)
  exact ⟨first, _, hfirst, by rw [hmade]; decide +kernel, hrun, by rw [hmade]; decide +kernel, hroom, hempty, hleast⟩

end Runs

end Table

end FlatTable

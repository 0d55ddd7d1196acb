import FlatTable.Proofs.Sessions

/-!
# What becomes of a table

Whatever is done to a table, it keeps its identity, and its generation is raised if it is cleared and otherwise stays. Of the operations that do not clear it, each stores keys or takes keys out, but none does both. So a key that is there before such an operation and found by it afterwards is the one that was stored, not an equal one stored in its place.
-/

namespace FlatTable

variable {K V : Type}

namespace Table

variable [BEq K] {t u w : Table K V} {cleared cleared' : Prop}

/-- The same table later: in a greater generation if it was cleared, and in the same if it was not. -/
structure Follows (t u : Table K V) (cleared : Prop) : Prop extends t.Keeps u where
  id_eq : u.id = t.id
  generation_le : t.generation ≤ u.generation
  generation_eq_iff : u.generation = t.generation ↔ ¬cleared

/-- The same table after nothing was stored under a new key. -/
structure Thins (t u : Table K V) (cleared : Prop) : Prop extends t.Follows u cleared where
  keys_subset : t.LayoutInvariant → u.keys ⊆ t.keys

/-- The same table after nothing was taken out. -/
structure Widens (t u : Table K V) : Prop extends t.Follows u False where
  keys_subset : t.LayoutInvariant → t.keys ⊆ u.keys

/-- The same table after one operation. -/
structure Succeeds (t u : Table K V) (cleared : Prop) : Prop extends t.Follows u cleared where
  /-- A key that is still found is still the stored one. -/
  stays : ¬cleared → t.LayoutInvariant → ∀ k ∈ t.keys, u.contains k = true → k ∈ u.keys

theorem Keeps.follows (h : t.Keeps u) (hid : u.id = t.id) (hgeneration : u.generation = t.generation) :
    t.Follows u False :=
  ⟨h, hid, hgeneration.ge, iff_of_true hgeneration not_false⟩

theorem Follows.trans (h : t.Follows u cleared) (h' : u.Follows w cleared') : t.Follows w (cleared ∨ cleared') where
  toKeeps := h.toKeeps.trans h'.toKeeps
  id_eq := h'.id_eq.trans h.id_eq
  generation_le := h.generation_le.trans h'.generation_le
  generation_eq_iff := by
    have hle := h.generation_le
    have hle' := h'.generation_le
    rw [not_or, ← h.generation_eq_iff, ← h'.generation_eq_iff]
    omega

theorem Thins.refl (t : Table K V) : t.Thins t False := ⟨(Keeps.refl t).follows rfl rfl, fun _ => List.Subset.refl _⟩

theorem Thins.trans (h : t.Thins u cleared) (h' : u.Thins w cleared') : t.Thins w (cleared ∨ cleared') :=
  ⟨h.toFollows.trans h'.toFollows, fun ht => List.Subset.trans (h'.keys_subset (h.layout ht)) (h.keys_subset ht)⟩

theorem Thins.congr (h : t.Thins u cleared) (hiff : cleared ↔ cleared') : t.Thins u cleared' := by rwa [← propext hiff]

/-- Operations that clear nothing, one after the other. -/
theorem Thins.append (h : t.Thins u False) (h' : u.Thins w False) : t.Thins w False := (h.trans h').congr or_self_iff

theorem Widens.refl (t : Table K V) : t.Widens t := ⟨(Keeps.refl t).follows rfl rfl, fun _ => List.Subset.refl _⟩

theorem Widens.trans (h : t.Widens u) (h' : u.Widens w) : t.Widens w where
  toFollows := by
    have htrans := h.toFollows.trans h'.toFollows
    rwa [or_self_iff] at htrans
  keys_subset ht := List.Subset.trans (h.keys_subset ht) (h'.keys_subset (h.layout ht))

/-! ### Stored keys -/

section Stored

variable [EquivBEq K] {k k' : K} {p : K × V}

/-- Under a key the pair is found whose stored key is the same. -/
theorem exists_entry_of_mem_keys (h : t.LayoutInvariant) (hk' : k' ∈ t.keys) (hsame : sameKey t.hash k' k = true) :
    ∃ v, t.getEntry? k = some (k', v) := by
  obtain ⟨b, hb, rfl⟩ := List.mem_map.mp hk'
  have hmem : b.toPair ∈ t.toList := List.mem_map_of_mem hb
  refine ⟨b.value, ?_⟩
  rw [getEntry?_eq (models_toList h)]
  exact PairMap.find?_of_mem (sameKey_equivalence t.hash) (distinct_toList h) hmem hsame

theorem mem_keys_of_entry (h : t.LayoutInvariant) (hp : t.getEntry? k = some p) :
    p.1 ∈ t.keys ∧ sameKey t.hash p.1 k = true := by
  rw [getEntry?_eq (models_toList h)] at hp
  obtain ⟨b, hb, rfl⟩ := List.mem_map.mp (List.mem_of_find?_eq_some hp)
  exact ⟨List.mem_map_of_mem hb, by simpa using List.find?_some hp⟩

theorem contains_eq_isSome (h : t.LayoutInvariant) (k : K) : t.contains k = (t.getEntry? k).isSome := by
  rw [contains_eq (models_toList h), getEntry?_eq (models_toList h)]

theorem Thins.succeeds (h : t.Thins u cleared) : t.Succeeds u cleared where
  toFollows := h.toFollows
  stays _ ht k hk hfound := by
    rw [contains_eq_isSome (h.layout ht)] at hfound
    obtain ⟨p, hp⟩ := Option.isSome_iff_exists.mp hfound
    obtain ⟨hmem, hsame⟩ := mem_keys_of_entry (h.layout ht) hp
    rw [h.hash] at hsame
    -- The table found one stored key under `k`, and that was `k` itself.
    obtain ⟨v, hfirst⟩ := exists_entry_of_mem_keys ht (h.keys_subset ht hmem) hsame
    obtain ⟨v', hown⟩ := exists_entry_of_mem_keys ht hk ((sameKey_equivalence t.hash).refl k)
    rw [hfirst] at hown
    obtain rfl : p.1 = k := congrArg Prod.fst (Option.some.inj hown)
    exact hmem

end Stored

theorem Widens.succeeds (h : t.Widens u) : t.Succeeds u False where
  toFollows := h.toFollows
  stays _ ht _ hk _ := h.keys_subset ht hk

/-! ### Writing, taking out and clearing -/

theorem keys_modifyValueAt (h : t.LayoutInvariant) (loc : Location) (f : V → V) :
    (t.modifyValueAt loc f).keys = t.keys := by
  rcases hb : t.bucketAt? loc with - | b
  · rw [modifyValueAt_eq_self h.wellFormed hb]
  · obtain ⟨before, after, hold, hnew⟩ := buckets_modifyValueAt h.wellFormed hb
    rw [keys, keys, hold, hnew f]
    simp [Bucket.mapValue]

theorem follows_modifyValueAt (t : Table K V) (loc : Location) (f : V → V) : t.Follows (t.modifyValueAt loc f) False :=
  (keeps_modifyValueAt t loc f).follows rfl rfl

theorem thins_modifyValueAt (t : Table K V) (loc : Location) (f : V → V) : t.Thins (t.modifyValueAt loc f) False :=
  ⟨follows_modifyValueAt t loc f, fun h => by rw [keys_modifyValueAt h]; exact List.Subset.refl _⟩

theorem thins_modify (t : Table K V) (k : K) (f : V → V) : t.Thins (t.modify k f).2 False := by
  rw [modify]
  split
  · exact Thins.refl t
  · exact thins_modifyValueAt t _ f

theorem thins_clear (t : Table K V) : t.Thins t.clear True where
  toKeeps := keeps_clear t
  id_eq := rfl
  generation_le := Nat.le_succ t.generation
  generation_eq_iff := iff_of_false (Nat.succ_ne_self t.generation) (not_not.mpr trivial)
  keys_subset _ := by
    rw [keys, buckets_clear]
    exact List.nil_subset _

section Equivalence

variable [EquivBEq K]

theorem thins_removeAt? (t : Table K V) (loc : Location) : t.Thins (t.removeAt? loc).2 False := by
  refine ⟨(keeps_removeAt? t loc).follows ?_ ?_, fun h => ?_⟩
  · rw [removeAt?]
    split <;> rfl
  · rw [removeAt?]
    split <;> rfl
  · rw [removeAt?]
    split
    · exact List.Subset.refl _
    · rename_i b hb
      have hperm := (buckets_dropAt_perm h.wellFormed hb).map (·.key)
      exact fun k hk => hperm.subset (List.mem_cons_of_mem _ hk)

theorem thins_removeEntry (t : Table K V) (k : K) : t.Thins (t.removeEntry k).2 False := by
  rw [removeEntry]
  split
  · exact Thins.refl t
  · exact thins_removeAt? t _

theorem thins_remove (t : Table K V) (k : K) : t.Thins (t.remove k).2 False := thins_removeEntry t k

theorem thins_retain {σ : Type} (t : Table K V) (f : Callback σ K V) (s : σ) : t.Thins (t.retain f s).2 False :=
  Cursor.retain_preserves (P := fun u => t.Thins u False) (fun u loc f h => h.append (thins_modifyValueAt u loc f))
    (fun u loc h => h.append (thins_removeAt? u loc)) f t.size s (Thins.refl t)

/-! ### Storing -/

theorem widens_grow (t : Table K V) : t.Widens t.grow where
  toKeeps := keeps_grow t
  id_eq := by
    rw [grow]
    split <;> rfl
  generation_le := by
    rw [grow]
    split <;> exact Nat.le_refl _
  generation_eq_iff := by
    refine iff_of_true ?_ not_false
    rw [grow]
    split <;> rfl
  keys_subset h := ((buckets_grow_perm h.capacity_pos).map Bucket.key).symm.subset

omit [EquivBEq K] in
theorem keys_subset_addNew (h : t.LayoutInvariant) (hash : UInt32) (k : K) (v : V) :
    t.keys ⊆ (t.addNew hash k v).1.keys := by
  have hperm := (buckets_addNew_perm h.wellFormed h.capacity_pos hash k v).map (·.key)
  exact fun k' hk' => hperm.symm.subset (List.mem_cons_of_mem _ hk')

theorem widens_settled (t : Table K V) : t.Widens t.settled := by
  rw [settled]
  split
  · exact widens_grow t
  · exact Widens.refl t

theorem widens_madeReady (t : Table K V) : t.Widens t.madeReady := by
  rw [madeReady]
  split
  · exact widens_grow t
  · exact Widens.refl t

omit [EquivBEq K] in
theorem widens_modifyValueAt (t : Table K V) (loc : Location) (f : V → V) : t.Widens (t.modifyValueAt loc f) :=
  ⟨follows_modifyValueAt t loc f, fun h => by rw [keys_modifyValueAt h]; exact List.Subset.refl _⟩

theorem widens_insert (t : Table K V) (k : K) (v : V) : t.Widens (t.insert k v).2 := by
  rcases hloc : t.locate? k with - | loc
  · rw [insert_of_locate?_eq_none hloc]
    have hadded : t.Widens (t.addNew (t.spreadHash k) k v).1 :=
      ⟨(keeps_addNew hloc v).follows rfl rfl, fun h => keys_subset_addNew h _ k v⟩
    exact hadded.trans (widens_settled _)
  · rw [insert_of_locate?_eq_some hloc]
    exact widens_modifyValueAt t loc _

theorem widens_extend (t : Table K V) (pairs : List (K × V)) : t.Widens (t.extend pairs) := by
  induction pairs generalizing t with
  | nil => exact Widens.refl t
  | cons p pairs ih => exact (widens_insert t p.1 p.2).trans (ih (t.insert p.1 p.2).2)

theorem widens_getOrInsert (t : Table K V) (k : K) (default : Option V) : t.Widens (t.getOrInsert k default).2 := by
  rcases hloc : t.locate? k with - | loc
  · have hready := widens_madeReady t
    have hkeeps := keeps_getOrInsert t k default
    rw [getOrInsert_of_locate?_eq_none hloc] at hkeeps ⊢
    cases default with
    | none => exact hready
    | some v =>
      refine ⟨hkeeps.follows hready.id_eq (hready.generation_eq_iff.mpr not_false), fun h => ?_⟩
      exact List.Subset.trans (hready.keys_subset h) (keys_subset_addNew (hready.layout h) _ k v)
  · rw [getOrInsert, hloc]
    exact Widens.refl t

end Equivalence

end Table

/-! ### Cursors, iterators and views -/

namespace Cursor

variable [BEq K] [EquivBEq K]

theorem thins_remove (c : Cursor K V) : c.table.Thins c.remove.2.table False :=
  remove_preserves (P := fun t => c.table.Thins t False) (fun t loc h => h.append (Table.thins_removeAt? t loc))
    (Table.Thins.refl c.table)

theorem thins_walk {t : Table K V} {c : Cursor K V} (h : c.Walk t) : t.Thins c.table False := by
  induction h with
  | start => exact Table.Thins.refl t
  | next _ ih => rwa [table_next]
  | @write c _ f ih =>
    exact ih.append (modifyLast_preserves (P := fun t => c.table.Thins t False)
      (fun t loc f h => h.append (Table.thins_modifyValueAt t loc f)) f (Table.Thins.refl c.table))
  | remove _ ih => exact ih.append (thins_remove _)

end Cursor

theorem Iter.thins_nextModify [BEq K] (it : Iter K V) (f : V → V) : it.table.Thins (it.nextModify f).2.table False := by
  have hsame := table_next it
  rw [nextModify]
  rcases hnext : it.next with ⟨- | ⟨loc, b⟩, it'⟩ <;> rw [hnext] at hsame
  · change it.table.Thins it'.table False
    rw [hsame]
    exact Table.Thins.refl it.table
  · change it.table.Thins (it'.table.modifyValueAt loc f) False
    rw [hsame]
    exact Table.thins_modifyValueAt it.table loc f

section Views

variable {α : Type} [BEq K]

theorem View.thins_edit (view : View K V) {f : Table K V → α × Table K V}
    (hf : ∀ t : Table K V, t.Thins (f t).2 False) : view.table.Thins (view.edit f).2 False := by
  obtain ⟨access, t⟩ := view
  cases access with
  | shared => exact Table.Thins.refl t
  | exclusive => exact hf t

theorem KeySet.thins_clear (s : KeySet K V) : s.table.Thins s.clear.2 (s.access = .exclusive) := by
  obtain ⟨access, t⟩ := s
  cases access with
  | shared => exact (Table.Thins.refl t).congr (by simp)
  | exclusive => exact (Table.thins_clear t).congr (by simp)

variable [EquivBEq K]

theorem KeySet.thins_remove (s : KeySet K V) (k : K) : s.table.Thins (s.remove k).2 False :=
  View.thins_edit _ fun t => Table.thins_removeEntry t k

theorem KeySet.thins_retain {σ : Type} (s : KeySet K V) (f : Callback σ K V) (state : σ) :
    s.table.Thins (s.retain f state).2 False :=
  View.thins_edit _ fun t => Table.thins_retain t f state

theorem ValuesView.thins_removeFrom [BEq V] (v : V) (fuel : Nat) (c : Cursor K V) :
    c.table.Thins (removeFrom v fuel c).2 False :=
  removeFrom_preserves (P := fun u => c.table.Thins u False) (fun u loc h => h.append (Table.thins_removeAt? u loc))
    v fuel (Table.Thins.refl c.table)

theorem ValuesView.thins_remove [BEq V] (s : ValuesView K V) (v : V) : s.table.Thins (s.remove v).2 False :=
  View.thins_edit _ fun t => thins_removeFrom v t.size (.start t)

theorem ValuesView.thins_removeAll [BEq V] (s : ValuesView K V) (vs : List V) :
    s.table.Thins (s.removeAll vs).2 False :=
  View.thins_edit _ fun t => Table.thins_retain t _ ()

theorem ValuesView.thins_retain {σ : Type} (s : ValuesView K V) (f : Callback σ K V) (state : σ) :
    s.table.Thins (s.retain f state).2 False :=
  View.thins_edit _ fun t => Table.thins_retain t f state

theorem EntrySet.thins_remove [BEq V] (s : EntrySet K V) (k : K) (v : V) :
    s.table.Thins (s.remove k v).2 False := by
  refine View.thins_edit _ fun t => ?_
  dsimp only
  split
  · exact Table.thins_removeEntry t k
  · exact Table.Thins.refl t

end Views

end FlatTable

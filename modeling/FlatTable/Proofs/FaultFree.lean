import FlatTable.Proofs.CheckedWalks
import FlatTable.Proofs.Sessions

/-!
# Nothing is missing

Every reachable table is solid, and so is every cursor on its way over one. At each of them all operations have the results that they have with nothing taken for granted: the locations that keys lead to, that placing gives and that a cursor remembers stand for live buckets whenever they are used, and no lookup, no difference and no range fails. The keys may have any equality and any hashes for that.
-/

namespace FlatTable

variable {K V : Type}

/-! ### Live buckets -/

/-- A bucket stands at a location: alone in its slot, or in a live cell of the slot's chain. -/
inductive Designates (slots : Array (Slot K V)) : Location → Bucket K V → Prop
  | primary {i : Nat} {b : Bucket K V} (hslot : slots[i]? = some (.pair b)) : Designates slots (.primary i) b
  | chained {i j : Nat} {c : Chain K V} {b : Bucket K V} (hslot : slots[i]? = some (.chained c))
      (hlive : j < c.length) (hcell : c.cells[j]? = some (some b)) : Designates slots (.chained i j) b

theorem designates_of_bucketAt? {slots : Array (Slot K V)} (h : AllWellFormed slots) {loc : Location} {b : Bucket K V}
    (hb : bucketAt? slots loc = some b) : Designates slots loc b := by
  obtain ⟨s, hs, hat⟩ := Option.bind_eq_some_iff.mp hb
  obtain ⟨i, rfl, rfl⟩ | ⟨i, j, c, rfl, rfl, hj⟩ := Slot.shape_of_bucketAt? hat
  · exact .primary hs
  · have hchain : (Slot.chained c).WellFormed := h.of_getElem? hs
    refine .chained hs ?_ (Checked.getElem?_of_get? hj)
    rw [Chain.get?_eq hchain.1] at hj
    rw [Chain.length_eq]
    exact (List.getElem?_eq_some_iff.mp hj).1

namespace Cursor

/-- At the cursor, every call does what it does with nothing taken for granted. -/
structure FaultFree (c : Cursor K V) : Prop where
  last : ∀ loc, c.last = some loc → ∃ b, Designates c.table.slots loc b
  next : Checked.next c = some c.next
  modifyLast : ∀ f : V → V, Checked.modifyLast c f = some (c.modifyLast f)
  remove : Checked.remove c = some c.remove
  remaining : Checked.remaining c = some c.remaining

theorem faultFree {c : Cursor K V} (h : c.Solid) : c.FaultFree where
  last loc hlast := by
    obtain ⟨b, hb⟩ := h.exists_bucket hlast
    exact ⟨b, designates_of_bucketAt? h.table.wellFormed hb⟩
  next := Checked.next_eq h
  modifyLast f := Checked.modifyLast_eq h f
  remove := Checked.remove_eq h
  remaining := Checked.remaining_eq h

end Cursor

namespace Table

/-- At the table, every operation does what it does with nothing taken for granted. -/
structure FaultFree [BEq K] (t : Table K V) : Prop where
  located : ∀ k loc, t.locate? k = some loc → ∃ b, Designates t.slots loc b
  placed : ∀ hash k v, Designates (t.addNew hash k v).1.slots (t.addNew hash k v).2 ⟨hash, k, v⟩
  /-- The location is that of the table after the call, which may have grown. -/
  obtained : ∀ k default u loc, t.getOrInsert k default = (.found loc, u) ∨ t.getOrInsert k default = (.inserted loc, u) →
    ∃ b, Designates u.slots loc b
  locate : ∀ k, Checked.locate t k = some (t.locate? k)
  getEntry : ∀ k, Checked.getEntry t k = some (t.getEntry? k)
  modify : ∀ k (f : V → V), Checked.modify t k f = some (t.modify k f)
  insert : ∀ k v, Checked.insert t k v = some (t.insert k v)
  extend : ∀ pairs, Checked.extend t pairs = some (t.extend pairs)
  getOrInsert : ∀ k default, Checked.getOrInsert t k default = some (t.getOrInsert k default)
  removeEntry : ∀ k, Checked.removeEntry t k = some (t.removeEntry k)
  grow : Checked.grow t = some t.grow
  retain : ∀ {σ : Type} (f : Callback σ K V) s, Checked.retain t f s = some (t.retain f s)
  removeValue : ∀ [BEq V] v, Checked.removeValue t v = some ((ValuesView.mk ⟨.exclusive, t⟩).remove v)
  removeValues : ∀ [BEq V] vs, Checked.removeValues t vs = some ((ValuesView.mk ⟨.exclusive, t⟩).removeAll vs)
  removePair : ∀ [BEq V] k v, Checked.removePair t k v = some ((EntrySet.mk ⟨.exclusive, t⟩).remove k v)
  sectionPairs : ∀ index count, Checked.sectionPairs t index count = some (t.sectionPairs index count)
  parallelPairs : ∀ workers order, (∀ i ∈ order, i < workers) →
    Checked.parallelPairs t workers order = some (t.parallelPairs workers order)
  cursors : ∀ c : Cursor K V, c.Walk t → c.FaultFree

variable [BEq K] {t : Table K V}

theorem exists_bucket_of_obtained (h : t.Solid) {k : K} {default : Option V} {u : Table K V} {loc : Location}
    (hresult : t.getOrInsert k default = (.found loc, u) ∨ t.getOrInsert k default = (.inserted loc, u)) :
    ∃ b, u.bucketAt? loc = some b := by
  rcases hfound : t.locate? k with - | found
  · rw [getOrInsert_of_locate?_eq_none hfound] at hresult
    rcases default with - | v
    · rcases hresult with hresult | hresult <;> cases hresult
    · rcases hresult with hresult | hresult
      · cases hresult
      · obtain ⟨hloc, rfl⟩ := Prod.mk.inj hresult
        obtain rfl := Obtained.inserted.inj hloc
        exact ⟨_, Checked.bucketAt?_addNew (stable_solid.madeReady h) _ k v⟩
  · rw [Table.getOrInsert, hfound] at hresult
    rcases hresult with hresult | hresult
    · obtain ⟨hloc, rfl⟩ := Prod.mk.inj hresult
      obtain rfl := Obtained.found.inj hloc
      exact Checked.exists_bucket_of_locate? h k hfound
    · cases hresult

theorem faultFree (h : t.Solid) : t.FaultFree where
  located k loc hloc := by
    obtain ⟨b, hb⟩ := Checked.exists_bucket_of_locate? h k hloc
    exact ⟨b, designates_of_bucketAt? h.wellFormed hb⟩
  placed hash k v := by
    have hslots : AllWellFormed (t.addNew hash k v).1.slots := allWellFormed_place h.wellFormed _
    exact designates_of_bucketAt? hslots (Checked.bucketAt?_addNew h hash k v)
  obtained k default u loc hresult := by
    have hleft : (t.getOrInsert k default).2.Solid := stable_solid.getOrInsert k default h
    have hu : u = (t.getOrInsert k default).2 := by rcases hresult with hresult | hresult <;> rw [hresult]
    obtain ⟨b, hb⟩ := exists_bucket_of_obtained h hresult
    rw [← hu] at hleft
    exact ⟨b, designates_of_bucketAt? hleft.wellFormed hb⟩
  locate k := Checked.locate_eq h k
  getEntry k := Checked.getEntry_eq h k
  modify k f := Checked.modify_eq h k f
  insert k v := Checked.insert_eq h k v
  extend pairs := Checked.extend_eq h pairs
  getOrInsert k default := Checked.getOrInsert_eq h k default
  removeEntry k := Checked.removeEntry_eq h k
  grow := Checked.grow_eq h
  retain f s := Checked.retain_eq h f s
  removeValue v := Checked.removeValue_eq h v
  removeValues vs := Checked.removeValues_eq h vs
  removePair k v := Checked.removePair_eq h k v
  sectionPairs index count := Checked.sectionPairs_eq t index count
  parallelPairs workers order horder := Checked.parallelPairs_eq t workers order horder
  cursors c hc := Cursor.faultFree (Cursor.solid_walk h hc)

end Table

/-- No traversal of a container by index asks for an element that is not there, and a fold has its accumulator back after every call. -/
structure Traversal.FaultFree (α : Type) : Prop where
  array : ∀ items : Array α, (Enumerable.strategy items).Complete
  vector : ∀ {n : Nat} (items : Vector α n), (Enumerable.strategy items).Complete
  slice : ∀ s : Slice α, (Enumerable.strategy s).Complete
  ringBuffer : ∀ q : RingBuffer α, (Enumerable.strategy q).Complete
  injectInto : ∀ {β γ : Type} {m : Type → Type} [Monad m] [LawfulMonad m] [Enumerable γ α] (start : β) (source : γ)
    (f : β → α → m β), Checked.injectInto start source f = some <$> Traversal.injectInto start source f

theorem Traversal.faultFree (α : Type) : FaultFree α where
  array := complete_runStrategy
  vector items := complete_runStrategy items.toArray
  slice := complete_slice
  ringBuffer := complete_ringBuffer
  injectInto := Checked.injectInto_eq

/-- Whatever the keys, their hashes and the callbacks are, no operation on a reachable table and no call of a cursor on its way over one comes to a location without a live bucket of its form, to an index or a range outside of an array, or to a difference that is not there; nor does the making of a table, or a traversal. -/
theorem never_faults :
    (∀ {K V : Type} [BEq K] {t : Table K V}, t.Reachable → t.FaultFree) ∧
    (∀ {K V σ : Type} [KeyKind K] [ValueKind V] (hasher : Hasher) (requests : List (Step K V σ)) {name : String}
        {held : Held K V}, (Session.run { hasher := hasher } requests).2.tables.find? name = some held →
      held.table.FaultFree) ∧
    (∀ {K V : Type} (hash : K → UInt64) (config : Config) (id : Nat),
      Checked.build hash config id = some (Table.build hash config id : Table K V)) ∧
    ∀ α : Type, Traversal.FaultFree α := by
  refine ⟨?_, ?_, ?_, Traversal.faultFree⟩
  · intro K V _ t h
    exact Table.faultFree (Table.solid_of_reachable h)
  · intro K V σ _ _ hasher requests name held hfind
    have hall : ({ hasher := hasher } : Session K V).AllReachable := fun entry hentry => absurd hentry List.not_mem_nil
    have hreachable := Session.reachable_of_find? (Session.allReachable_run requests hall) hfind
    exact Table.faultFree (Table.solid_of_reachable hreachable)
  · intro K V hash config id
    exact Checked.build_eq hash config id

/-- Keys that all collide, with a cursor that has removed the first of them and returned the one moved there, and a session that removes what it stored. -/
theorem never_faults_colliding :
    (∃ t : Table Nat Nat, ∃ c : Cursor Nat Nat,
        t = (Table.build (fun _ => 7) .standard 0).extend [(1, 10), (2, 20), (3, 30)] ∧ t.Reachable ∧ t.FaultFree ∧
          c = (Cursor.start t).next.2.remove.2.next.2 ∧ c.Walk t ∧ c.last = some (.chained 7 0) ∧ c.FaultFree) ∧
      (∃ requests : List (Step UInt64 Int64), requests =
          [.make "t" (.ofConfig .standard none), .edit "t" (.insert 1 2), .edit "t" (.remove 1)] ∧
        ∃ held, (Session.run { hasher := .identity } requests).2.tables.find? "t" = some held ∧
          held.table.FaultFree) ∧
      Checked.injectInto 0 [1, 2, 3] (fun n a => (n + a : Id Nat)) = some 6 := by
  refine ⟨?_, ?_, ?_⟩
  · have hreachable := Table.Reachable.made (Table.Made.collect (fun _ : Nat => 7) [(1, 10), (2, 20), (3, 30)] 0)
    have hwalk := Cursor.Walk.start (t := (Table.build (fun _ : Nat => 7) .standard 0).extend
      [(1, 10), (2, 20), (3, 30)]) |>.next.remove.next
    have hfree := never_faults.1 hreachable
    exact ⟨_, _, rfl, hreachable, hfree, rfl, hwalk, by decide +kernel, hfree.cursors _ hwalk⟩
  · obtain ⟨requests, hrequests⟩ : ∃ requests : List (Step UInt64 Int64), requests =
        [.make "t" (.ofConfig .standard none), .edit "t" (.insert 1 2), .edit "t" (.remove 1)] := ⟨_, rfl⟩
    obtain ⟨held, hfind⟩ : ∃ held, (Session.run { hasher := .identity } requests).2.tables.find? "t" = some held := by
      rw [hrequests]
      exact ⟨_, rfl⟩
    exact ⟨requests, hrequests, held, hfind, never_faults.2.1 _ _ hfind⟩
  · exact (never_faults.2.2.2 Nat).injectInto (m := Id) 0 [1, 2, 3] fun n a => n + a

/-- The checks are not idle: a cursor that remembers a location in a table that was emptied cannot remove from it. -/
example : (Checked.remove (K := Nat) (V := Nat)
    ⟨.build (fun _ => 7) .standard 0, 1, 1, 0, some (.primary 0)⟩).isNone = true := by decide +kernel

end FlatTable

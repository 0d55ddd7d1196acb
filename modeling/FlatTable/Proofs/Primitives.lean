import FlatTable.Proofs.Reachable

/-!
# What the primitive changes preserve

Every operation on tables comes down to writing to a value, taking a bucket out, adding a pair, growing, clearing and cloning. A property that these preserve is preserved by all operations, whatever the keys' equality is, and holds of every reachable table if it holds of the empty ones. The layout is such a property as far as it does not compare keys.
-/

namespace FlatTable

variable {K V : Type}

namespace Table

/-- Preserved by the changes that all operations are made of. -/
structure Stable (P : Table K V → Prop) : Prop where
  write : ∀ t loc (f : V → V), P t → P (t.modifyValueAt loc f)
  drop : ∀ t loc, P t → P (t.removeAt? loc).2
  add : ∀ t k v, P t → P (t.addNew (t.spreadHash k) k v).1
  grow : ∀ t, P t → P t.grow
  clear : ∀ t, P t → P t.clear
  clone : ∀ t id, P t → P (t.clone id)

namespace Stable

variable {P : Table K V → Prop} (hP : Stable P) {t : Table K V}
include hP

/-! ### Operations on tables -/

section Operations

variable [BEq K]

theorem insert (k : K) (v : V) (h : P t) : P (t.insert k v).2 := by
  rcases hloc : t.locate? k with - | loc
  · have hadded := hP.add t k v h
    rw [insert_of_locate?_eq_none hloc]
    dsimp only
    rw [settled]
    split
    · exact hP.grow _ hadded
    · exact hadded
  · rw [insert_of_locate?_eq_some hloc]
    exact hP.write t loc _ h

theorem extend (pairs : List (K × V)) (h : P t) : P (t.extend pairs) := by
  induction pairs generalizing t with
  | nil => exact h
  | cons p pairs ih => exact ih (hP.insert p.1 p.2 h)

theorem modify (k : K) (f : V → V) (h : P t) : P (t.modify k f).2 := by
  rw [Table.modify]
  split
  · exact h
  · exact hP.write t _ f h

omit [BEq K] in
theorem madeReady (h : P t) : P t.madeReady := by
  rw [Table.madeReady]
  split
  · exact hP.grow t h
  · exact h

theorem getOrInsert (k : K) (default : Option V) (h : P t) : P (t.getOrInsert k default).2 := by
  rcases hloc : t.locate? k with - | loc
  · have hready := hP.madeReady h
    rw [getOrInsert_of_locate?_eq_none hloc]
    cases default with
    | none => exact hready
    | some v => exact hP.add _ k v hready
  · rw [Table.getOrInsert, hloc]
    exact h

theorem removeEntry (k : K) (h : P t) : P (t.removeEntry k).2 := by
  rw [Table.removeEntry]
  split
  · exact h
  · exact hP.drop t _ h

theorem handleModify (e : EntryHandle K) (f : V → V) (h : P t) : P (e.modify t f).2 := by
  rw [EntryHandle.modify]
  split
  · exact h
  · exact hP.modify e.key f h

theorem handleSetValue (e : EntryHandle K) (v : V) (h : P t) : P (e.setValue t v).2 := by
  have hmodified := hP.handleModify e (fun _ => v) h
  rw [EntryHandle.setValue]
  rcases hset : (e.modify t fun _ => v) with ⟨error | ⟨old, _⟩, u⟩ <;> rw [hset] at hmodified <;> exact hmodified

theorem entrySetValue (e : ScopedEntry K) (scopes : Scopes) (viewScope : Nat) (v : V) (h : P t) :
    P (e.setValue scopes viewScope t v).2 := by
  rw [ScopedEntry.setValue]
  split
  · exact h
  · exact hP.modify e.key _ h

end Operations

/-! ### Walks and views -/

theorem retain {σ : Type} (f : Callback σ K V) (s : σ) (h : P t) : P (t.retain f s).2 :=
  Cursor.retain_preserves hP.write hP.drop f t.size s (c := .start t) h

theorem cursorWalk {c : Cursor K V} (hc : c.Walk t) (h : P t) : P c.table := by
  induction hc with
  | start => exact h
  | next _ ih => rwa [Cursor.table_next]
  | write _ f ih => exact Cursor.modifyLast_preserves hP.write f ih
  | remove _ ih => exact Cursor.remove_preserves hP.drop ih

theorem iterWalk {it : Iter K V} (hit : it.Walk t) (h : P t) : P it.table := by
  induction hit with
  | start => exact h
  | next hwalk f ih =>
    rename_i it
    have hsame := Iter.table_next it
    rw [Iter.nextModify]
    rcases hnext : it.next with ⟨- | ⟨loc, b⟩, it'⟩ <;> rw [hnext] at hsame <;> rw [← hsame] at ih
    · exact ih
    · exact hP.write _ loc f ih

omit hP in
theorem viewEdit {α : Type} {f : Table K V → α × Table K V} (hf : ∀ t, P t → P (f t).2) (access : Access)
    (h : P t) : P ((View.mk access t).edit f).2 := by
  cases access with
  | shared => exact h
  | exclusive => exact hf t h

/-! ### Reachable tables -/

variable [BEq K]

theorem leads {u : Table K V} (hstep : t.Leads u) (h : P t) : P u := by
  cases hstep with
  | clone id => exact hP.clone t id h
  | insert k v => exact hP.insert k v h
  | extend pairs => exact hP.extend pairs h
  | modify k f => exact hP.modify k f h
  | getOrInsert k default => exact hP.getOrInsert k default h
  | write loc f => exact hP.write t loc f h
  | remove k => exact hP.removeEntry k h
  | removeEntry k => exact hP.removeEntry k h
  | clear => exact hP.clear t h
  | retain f s => exact hP.retain f s h
  | cursor hc => exact hP.cursorWalk hc h
  | iterate hit => exact hP.iterWalk hit h
  | removeKey access k =>
    refine viewEdit (fun t h => ?_) access h
    exact hP.removeEntry k h
  | retainKeys access f s => exact viewEdit (fun _ h => hP.retain f s h) access h
  | clearKeys access => exact viewEdit (fun t h => hP.clear t h) access h
  | removeValue access v =>
    exact viewEdit (fun t h => ValuesView.removeFrom_preserves hP.drop v t.size (c := .start t) h) access h
  | removeValues access vs =>
    refine viewEdit (fun t h => ?_) access h
    exact hP.retain _ () h
  | retainValues access f s => exact viewEdit (fun _ h => hP.retain f s h) access h
  | removePair access k v =>
    refine viewEdit (fun t h => ?_) access h
    dsimp only
    split
    · exact hP.removeEntry k h
    · exact h
  | modifyByHandle e f => exact hP.handleModify e f h
  | setByHandle e v => exact hP.handleSetValue e v h
  | setByEntry e scopes viewScope v => exact hP.entrySetValue e scopes viewScope v h

variable (hbuild : ∀ (hash : K → UInt64) (config : Config) (id : Nat), P (build hash config id))
include hbuild

omit hP [BEq K] in
theorem create {hash : K → UInt64} {config : Config} {id : Nat} (h : create hash config id = .ok t) : P t := by
  rw [Table.create] at h
  split at h
  · cases h
  · rw [← Except.ok.inj h]
    exact hbuild hash config id

omit hP [BEq K] in
theorem readyFor {hash : K → UInt64} {count : Nat} {lf : LoadFactor} {id : Nat}
    (h : readyFor hash count lf id = .ok t) : P t := by
  obtain ⟨config, -, h⟩ := exists_of_bind_eq_ok h
  exact create hbuild h

theorem ofPersisted {hash : K → UInt64} {declared : Nat} {lf : LoadFactor} {pairs : List (K × V)} {id : Nat}
    (h : ofPersisted hash declared lf pairs id = .ok t) : P t := by
  obtain ⟨ready, hready, rfl⟩ := exists_ready_of_ofPersisted h
  exact hP.extend pairs (readyFor hbuild hready)

theorem formBuild {ε : Type} {form : Form K V ε} {refused : TableError → ε} {hash : K → UInt64} {hint : Option Nat}
    {id : Nat} (h : form.build refused hash hint id = .ok t) : P t := by
  obtain ⟨ready, hready, rfl⟩ := exists_ready_of_build h
  exact hP.extend form.pairs (readyFor hbuild hready)

theorem made (h : Made t) : P t := by
  cases h with
  | create h => exact create hbuild h
  | collect hash pairs id => exact hP.extend pairs (hbuild hash .standard id)
  | ofPersisted h => exact hP.ofPersisted hbuild h
  | readFrom h =>
    obtain ⟨⟨elements, form⟩, -, h⟩ := exists_of_bind_eq_ok h
    rcases hbroken : form.broken with - | e <;> simp only [hbroken] at h
    · split at h
      · cases h
      · exact hP.ofPersisted hbuild (eq_ok_of_mapError h)
    · cases h
  | decode h =>
    obtain ⟨⟨elements, form⟩, -, h⟩ := exists_of_bind_eq_ok h
    exact hP.formBuild hbuild h
  | ofText h =>
    obtain ⟨form, -, h⟩ := exists_of_bind_eq_ok h
    exact hP.formBuild hbuild h

/-- What the primitive changes preserve and empty tables satisfy, every reachable table satisfies. -/
theorem reachable (h : Reachable t) : P t := by
  induction h with
  | made h => exact hP.made hbuild h
  | step _ hstep ih => exact hP.leads hstep ih

end Stable

/-! ### The layout without the keys' equality -/

/-- The equality of keys of which no two are equal. -/
abbrev neverEqual (K : Type) : BEq K := ⟨fun _ _ => false⟩

theorem partialEquiv_neverEqual : @PartialEquivBEq K (neverEqual K) :=
  letI := neverEqual K
  { symm := fun h => Bool.noConfusion h
    trans := fun h => Bool.noConfusion h }

/-- What the layout invariant says of keys of which no two are equal: all but that the stored keys are distinct. -/
def Solid (t : Table K V) : Prop := @LayoutInvariant K V (neverEqual K) t

namespace Solid

variable {t : Table K V}

theorem capacity_pos (h : t.Solid) : 0 < t.slots.size := @LayoutInvariant.capacity_pos K V (neverEqual K) t h

theorem wellFormed (h : t.Solid) : AllWellFormed t.slots := @LayoutInvariant.wellFormed K V (neverEqual K) t h

theorem size_eq (h : t.Solid) : t.size = t.buckets.length := @LayoutInvariant.size_eq K V (neverEqual K) t h

end Solid

theorem solid_build (hash : K → UInt64) (config : Config) (id : Nat) : (build hash config id : Table K V).Solid :=
  @layoutInvariant_build K V (neverEqual K) hash config id

theorem stable_solid : Stable (Solid : Table K V → Prop) :=
  letI := neverEqual K
  haveI := partialEquiv_neverEqual (K := K)
  { write := fun t loc f h => (keeps_modifyValueAt t loc f).layout h
    drop := fun t loc h => (keeps_removeAt? t loc).layout h
    add := fun _ _ v h => layoutInvariant_addNew h ((locate?_eq_none h).mpr fun _ _ => Bool.and_false _) v
    grow := fun t h => (keeps_grow t).layout h
    clear := fun t h => (keeps_clear t).layout h
    clone := fun t id h => (keeps_clone t id).layout h }

/-- Every reachable table is solid, whatever the equality of its keys. -/
theorem solid_of_reachable [BEq K] {t : Table K V} (h : t.Reachable) : t.Solid :=
  stable_solid.reachable solid_build h

end Table

end FlatTable

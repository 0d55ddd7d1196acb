import FlatTable.Persist.Binary
import FlatTable.Persist.Text
import FlatTable.Proofs.Operations
import FlatTable.Proofs.Threshold
import FlatTable.Proofs.Walk
import FlatTable.Session.Scope
import FlatTable.Table.Handle
import FlatTable.Table.Iter
import FlatTable.Table.Views

/-!
# Reachable tables

A table is reachable if some constructor made it and operations led to it, with whatever hash function, values and callbacks; a callback that aborts leaves the table as it is then. What a constructor makes is sound, and every operation keeps the layout, the hash function and the load factor, so every reachable table is sound.
-/

namespace FlatTable

variable {K V : Type}

/-! ### Walks of cursors and iterators -/

/-- A cursor over a table after some calls, the caller having written to pairs that it returned. -/
inductive Cursor.Walk (t : Table K V) : Cursor K V → Prop
  | start : Walk t (.start t)
  | next {c : Cursor K V} (h : Walk t c) : Walk t c.next.2
  | write {c : Cursor K V} (h : Walk t c) (f : V → V) : Walk t (c.modifyLast f)
  | remove {c : Cursor K V} (h : Walk t c) : Walk t c.remove.2

/-- An iterator over a table after some calls, each of which may have changed the value it yielded. -/
inductive Iter.Walk (t : Table K V) : Iter K V → Prop
  | start : Walk t t.iter
  | next {it : Iter K V} (h : Walk t it) (f : V → V) : Walk t (it.nextModify f).2

section Walks

variable [BEq K]

theorem Cursor.keeps_walk [EquivBEq K] {t : Table K V} {c : Cursor K V} (h : c.Walk t) : t.Keeps c.table := by
  induction h with
  | start => exact Table.Keeps.refl t
  | next _ ih => exact ih.trans (keeps_next _)
  | write _ f ih => exact ih.trans (keeps_modifyLast _ f)
  | remove _ ih => exact ih.trans (keeps_remove _)

omit [BEq K] in
theorem Iter.table_next (it : Iter K V) : it.next.2.table = it.table := by
  rw [next]
  split
  · rfl
  · split <;> rfl

theorem Iter.keeps_nextModify (it : Iter K V) (f : V → V) : it.table.Keeps (it.nextModify f).2.table := by
  have hsame := table_next it
  rw [nextModify]
  rcases hnext : it.next with ⟨- | ⟨loc, b⟩, it'⟩ <;> rw [hnext] at hsame
  · change it.table.Keeps it'.table
    rw [hsame]
    exact Table.Keeps.refl it.table
  · change it.table.Keeps (it'.table.modifyValueAt loc f)
    rw [hsame]
    exact Table.keeps_modifyValueAt it.table loc f

theorem Iter.keeps_walk {t : Table K V} {it : Iter K V} (h : it.Walk t) : t.Keeps it.table := by
  induction h with
  | start => exact Table.Keeps.refl t
  | next _ f ih => exact ih.trans (keeps_nextModify _ f)

end Walks

/-! ### Views, handles and entries -/

section Views

variable {α : Type} [BEq K]

theorem View.keeps_edit (view : View K V) {f : Table K V → α × Table K V}
    (hf : ∀ t : Table K V, t.Keeps (f t).2) :
    view.table.Keeps (view.edit f).2 := by
  obtain ⟨access, t⟩ := view
  cases access with
  | shared => exact Table.Keeps.refl t
  | exclusive => exact hf t

theorem EntryHandle.keeps_modify (h : EntryHandle K) (t : Table K V) (f : V → V) : t.Keeps (h.modify t f).2 := by
  rw [modify]
  split
  · exact Table.Keeps.refl t
  · exact Table.keeps_modify t h.key f

theorem EntryHandle.keeps_setValue (h : EntryHandle K) (t : Table K V) (v : V) : t.Keeps (h.setValue t v).2 := by
  have hkeeps := keeps_modify h t fun _ => v
  rw [setValue]
  rcases hset : (h.modify t fun _ => v) with ⟨e | ⟨old, _⟩, u⟩ <;> rw [hset] at hkeeps <;> exact hkeeps

theorem ScopedEntry.keeps_setValue (e : ScopedEntry K) (scopes : Scopes) (viewScope : Nat) (t : Table K V) (v : V) :
    t.Keeps (e.setValue scopes viewScope t v).2 := by
  rw [setValue]
  split
  · exact Table.Keeps.refl t
  · exact Table.keeps_modify t e.key _

variable [EquivBEq K]

theorem KeySet.keeps_remove (s : KeySet K V) (k : K) : s.table.Keeps (s.remove k).2 :=
  View.keeps_edit _ fun t => Table.keeps_removeEntry t k

theorem KeySet.keeps_retain {σ : Type} (s : KeySet K V) (f : Callback σ K V) (state : σ) :
    s.table.Keeps (s.retain f state).2 :=
  View.keeps_edit _ fun t => Table.keeps_retain t f state

omit [EquivBEq K] in
theorem KeySet.keeps_clear (s : KeySet K V) : s.table.Keeps s.clear.2 :=
  View.keeps_edit _ Table.keeps_clear

omit [BEq K] [EquivBEq K] in
/-- What removing a pair preserves, a removal by value preserves. -/
theorem ValuesView.removeFrom_preserves [BEq V] {P : Table K V → Prop}
    (hremove : ∀ t loc, P t → P (t.removeAt? loc).2) (v : V) (fuel : Nat) {c : Cursor K V} (h : P c.table) :
    P (removeFrom v fuel c).2 := by
  induction fuel generalizing c with
  | zero => exact h
  | succ fuel ih =>
    have hnext := Cursor.table_next c
    rw [removeFrom]
    rcases hc : c.next with ⟨e | ⟨k, x⟩, c'⟩ <;> rw [hc] at hnext <;> rw [← hnext] at h
    · exact h
    · dsimp only
      split
      · exact Cursor.remove_preserves hremove h
      · exact ih h

theorem ValuesView.keeps_removeFrom [BEq V] (v : V) (fuel : Nat) (c : Cursor K V) :
    c.table.Keeps (removeFrom v fuel c).2 :=
  removeFrom_preserves (fun t loc h => h.trans (Table.keeps_removeAt? t loc)) v fuel (Table.Keeps.refl c.table)

theorem ValuesView.keeps_remove [BEq V] (s : ValuesView K V) (v : V) : s.table.Keeps (s.remove v).2 :=
  View.keeps_edit _ fun t => keeps_removeFrom v t.size (.start t)

theorem ValuesView.keeps_removeAll [BEq V] (s : ValuesView K V) (vs : List V) : s.table.Keeps (s.removeAll vs).2 :=
  View.keeps_edit _ fun t => Table.keeps_retain t _ ()

theorem ValuesView.keeps_retain {σ : Type} (s : ValuesView K V) (f : Callback σ K V) (state : σ) :
    s.table.Keeps (s.retain f state).2 :=
  View.keeps_edit _ fun t => Table.keeps_retain t f state

theorem EntrySet.keeps_remove [BEq V] (s : EntrySet K V) (k : K) (v : V) : s.table.Keeps (s.remove k v).2 := by
  refine View.keeps_edit _ fun t => ?_
  dsimp only
  split
  · exact Table.keeps_removeEntry t k
  · exact Table.Keeps.refl t

end Views

/-! ### Made and reachable tables -/

/-- What a computation in two parts gives is what its second part gives for a result of the first. -/
theorem exists_of_bind_eq_ok {ε α β : Type} {x : Except ε α} {f : α → Except ε β} {b : β} (h : (x >>= f) = .ok b) :
    ∃ a, x = .ok a ∧ f a = .ok b := by
  cases x with
  | error e => exact absurd h (by simp [bind, Except.bind])
  | ok a => exact ⟨a, rfl, h⟩

theorem eq_ok_of_mapError {ε ε' α : Type} {x : Except ε α} {f : ε → ε'} {a : α} (h : x.mapError f = .ok a) :
    x = .ok a := by
  cases x with
  | error e => exact absurd h (by simp [Except.mapError])
  | ok a' => exact congrArg Except.ok (Except.ok.inj h)

theorem bind_eq_ok_iff {ε α β : Type} {x : Except ε α} {f : α → Except ε β} {b : β} :
    (x >>= f) = .ok b ↔ ∃ a, x = .ok a ∧ f a = .ok b := by
  constructor
  · exact exists_of_bind_eq_ok
  · rintro ⟨a, rfl, hf⟩
    exact hf

theorem mapError_eq_ok_iff {ε ε' α : Type} {x : Except ε α} {f : ε → ε'} {a : α} :
    x.mapError f = .ok a ↔ x = .ok a := by
  constructor
  · exact eq_ok_of_mapError
  · rintro rfl
    rfl

namespace Table

/-- Tables fresh from a constructor. -/
inductive Made [BEq K] : Table K V → Prop
  | create {hash : K → UInt64} {config : Config} {id : Nat} {t : Table K V} (h : create hash config id = .ok t) : Made t
  | collect (hash : K → UInt64) (pairs : List (K × V)) (id : Nat) : Made ((build hash .standard id).extend pairs)
  | ofPersisted {hash : K → UInt64} {declared : Nat} {lf : LoadFactor} {pairs : List (K × V)} {id : Nat}
      {t : Table K V} (h : ofPersisted hash declared lf pairs id = .ok t) : Made t
  | readFrom [BinaryCodec K] [BinaryCodec V] {hash : K → UInt64} {input : List UInt8} {id : Nat} {t : Table K V}
      (h : readFrom hash input id = .ok t) : Made t
  | decode [BinaryCodec K] [BinaryCodec V] {hash : K → UInt64} {input : List UInt8} {id : Nat} {t : Table K V}
      (h : decode hash input id = .ok t) : Made t
  | ofText [JsonCodec K] [JsonCodec V] {hash : K → UInt64} {text : String} {id : Nat} {t : Table K V}
      (h : ofText hash text id = .ok t) : Made t

/-- One operation leads from a table to another. -/
inductive Leads [BEq K] (t : Table K V) : Table K V → Prop
  | clone (id : Nat) : Leads t (t.clone id)
  | insert (k : K) (v : V) : Leads t (t.insert k v).2
  | extend (pairs : List (K × V)) : Leads t (t.extend pairs)
  | modify (k : K) (f : V → V) : Leads t (t.modify k f).2
  /-- A default that is `none` aborts. -/
  | getOrInsert (k : K) (default : Option V) : Leads t (t.getOrInsert k default).2
  /-- The caller writes to a value that an operation referred to. -/
  | write (loc : Location) (f : V → V) : Leads t (t.modifyValueAt loc f)
  | remove (k : K) : Leads t (t.remove k).2
  | removeEntry (k : K) : Leads t (t.removeEntry k).2
  | clear : Leads t t.clear
  | retain {σ : Type} (f : Callback σ K V) (s : σ) : Leads t (t.retain f s).2
  | cursor {c : Cursor K V} (h : c.Walk t) : Leads t c.table
  | iterate {it : Iter K V} (h : it.Walk t) : Leads t it.table
  | removeKey (access : Access) (k : K) : Leads t (KeySet.remove ⟨⟨access, t⟩⟩ k).2
  | retainKeys {σ : Type} (access : Access) (f : Callback σ K V) (s : σ) :
      Leads t (KeySet.retain ⟨⟨access, t⟩⟩ f s).2
  | clearKeys (access : Access) : Leads t (KeySet.clear ⟨⟨access, t⟩⟩).2
  | removeValue [BEq V] (access : Access) (v : V) : Leads t (ValuesView.remove ⟨⟨access, t⟩⟩ v).2
  | removeValues [BEq V] (access : Access) (vs : List V) : Leads t (ValuesView.removeAll ⟨⟨access, t⟩⟩ vs).2
  | retainValues {σ : Type} (access : Access) (f : Callback σ K V) (s : σ) :
      Leads t (ValuesView.retain ⟨⟨access, t⟩⟩ f s).2
  | removePair [BEq V] (access : Access) (k : K) (v : V) : Leads t (EntrySet.remove ⟨⟨access, t⟩⟩ k v).2
  | modifyByHandle (h : EntryHandle K) (f : V → V) : Leads t (h.modify t f).2
  | setByHandle (h : EntryHandle K) (v : V) : Leads t (h.setValue t v).2
  | setByEntry (e : ScopedEntry K) (scopes : Scopes) (viewScope : Nat) (v : V) :
      Leads t (e.setValue scopes viewScope t v).2

/-- Tables that operations led to, from one that a constructor made. -/
inductive Reachable [BEq K] : Table K V → Prop
  | made {t : Table K V} (h : Made t) : Reachable t
  | step {t u : Table K V} (h : Reachable t) (hstep : t.Leads u) : Reachable u

/-- What holds of every reachable table. -/
structure Sound [BEq K] (t : Table K V) : Prop where
  layout : t.LayoutInvariant
  loadFactor_isValid : t.loadFactor.isValid = true

variable [BEq K]

theorem sound_of_keeps {t u : Table K V} (h : t.Sound) (hkeeps : t.Keeps u) : u.Sound :=
  ⟨hkeeps.layout h.layout, by rw [hkeeps.loadFactor]; exact h.loadFactor_isValid⟩

theorem isValid_of_validate {config : Config} (h : config.validate = .ok ()) : config.loadFactor.isValid = true := by
  rcases hvalid : config.loadFactor.isValid with - | -
  · rw [Config.validate, hvalid] at h
    simp at h
  · rfl

theorem sound_of_create {hash : K → UInt64} {config : Config} {id : Nat} {t : Table K V}
    (h : create hash config id = .ok t) : t.Sound := by
  rw [create] at h
  rcases hvalidate : config.validate with e | ⟨⟩ <;> rw [hvalidate] at h
  · simp at h
  · obtain rfl := Except.ok.inj h
    exact ⟨layoutInvariant_build hash config id, isValid_of_validate hvalidate⟩

section Persisted

variable {hash : K → UInt64} {id : Nat} {t : Table K V}

theorem exists_ready_of_ofPersisted {declared : Nat} {lf : LoadFactor} {pairs : List (K × V)}
    (h : ofPersisted hash declared lf pairs id = .ok t) :
    ∃ ready, readyFor hash declared lf id = .ok ready ∧ t = ready.extend pairs := by
  obtain ⟨ready, hready, h⟩ := exists_of_bind_eq_ok h
  obtain ⟨-, -, h⟩ := exists_of_bind_eq_ok h
  exact ⟨ready, hready, (Except.ok.inj h).symm⟩

theorem exists_ready_of_build {ε : Type} {form : Form K V ε} {refused : TableError → ε} {hint : Option Nat}
    (h : form.build refused hash hint id = .ok t) :
    ∃ ready, readyFor hash (presize form.declared hint) form.loadFactor id = .ok ready ∧
      t = ready.extend form.pairs := by
  obtain ⟨ready, hready, h⟩ := exists_of_bind_eq_ok h
  refine ⟨ready, eq_ok_of_mapError hready, ?_⟩
  rcases hbroken : form.broken with - | e <;> simp only [hbroken] at h
  · obtain ⟨-, -, h⟩ := exists_of_bind_eq_ok h
    rcases htrailing : form.trailing with - | e <;> simp only [htrailing] at h
    · exact (Except.ok.inj h).symm
    · cases h
  · cases h

theorem sound_of_readyFor {count : Nat} {lf : LoadFactor} (h : readyFor hash count lf id = .ok t) : t.Sound := by
  obtain ⟨config, -, h⟩ := exists_of_bind_eq_ok h
  exact sound_of_create h

end Persisted

variable [EquivBEq K]

theorem keeps_of_leads {t u : Table K V} (h : t.Leads u) : t.Keeps u := by
  cases h with
  | clone id => exact keeps_clone t id
  | insert k v => exact keeps_insert t k v
  | extend pairs => exact keeps_extend t pairs
  | modify k f => exact keeps_modify t k f
  | getOrInsert k default => exact keeps_getOrInsert t k default
  | write loc f => exact keeps_modifyValueAt t loc f
  | remove k => exact keeps_remove t k
  | removeEntry k => exact keeps_removeEntry t k
  | clear => exact keeps_clear t
  | retain f s => exact keeps_retain t f s
  | cursor h => exact Cursor.keeps_walk h
  | iterate h => exact Iter.keeps_walk h
  | removeKey access k => exact KeySet.keeps_remove ⟨⟨access, t⟩⟩ k
  | retainKeys access f s => exact KeySet.keeps_retain ⟨⟨access, t⟩⟩ f s
  | clearKeys access => exact KeySet.keeps_clear ⟨⟨access, t⟩⟩
  | removeValue access v => exact ValuesView.keeps_remove ⟨⟨access, t⟩⟩ v
  | removeValues access vs => exact ValuesView.keeps_removeAll ⟨⟨access, t⟩⟩ vs
  | retainValues access f s => exact ValuesView.keeps_retain ⟨⟨access, t⟩⟩ f s
  | removePair access k v => exact EntrySet.keeps_remove ⟨⟨access, t⟩⟩ k v
  | modifyByHandle h f => exact EntryHandle.keeps_modify h t f
  | setByHandle h v => exact EntryHandle.keeps_setValue h t v
  | setByEntry e scopes viewScope v => exact ScopedEntry.keeps_setValue e scopes viewScope t v

theorem sound_of_ofPersisted {hash : K → UInt64} {id : Nat} {t : Table K V} {declared : Nat} {lf : LoadFactor}
    {pairs : List (K × V)} (h : ofPersisted hash declared lf pairs id = .ok t) : t.Sound := by
  obtain ⟨ready, hready, rfl⟩ := exists_ready_of_ofPersisted h
  exact sound_of_keeps (sound_of_readyFor hready) (keeps_extend ready pairs)

theorem sound_of_build {hash : K → UInt64} {id : Nat} {t : Table K V} {ε : Type} {form : Form K V ε}
    {refused : TableError → ε} {hint : Option Nat} (h : form.build refused hash hint id = .ok t) : t.Sound := by
  obtain ⟨ready, hready, rfl⟩ := exists_ready_of_build h
  exact sound_of_keeps (sound_of_readyFor hready) (keeps_extend ready form.pairs)

theorem sound_of_made {t : Table K V} (h : Made t) : t.Sound := by
  cases h with
  | create h => exact sound_of_create h
  | collect hash pairs id =>
    have hvalid : Config.standard.loadFactor.isValid = true := by decide
    exact sound_of_keeps ⟨layoutInvariant_build hash .standard id, hvalid⟩ (keeps_extend _ pairs)
  | ofPersisted h => exact sound_of_ofPersisted h
  | readFrom h =>
    obtain ⟨⟨elements, form⟩, -, h⟩ := exists_of_bind_eq_ok h
    rcases hbroken : form.broken with - | e <;> simp only [hbroken] at h
    · split at h
      · cases h
      · exact sound_of_ofPersisted (eq_ok_of_mapError h)
    · cases h
  | decode h =>
    obtain ⟨⟨elements, form⟩, -, h⟩ := exists_of_bind_eq_ok h
    exact sound_of_build h
  | ofText h =>
    obtain ⟨form, -, h⟩ := exists_of_bind_eq_ok h
    exact sound_of_build h

theorem sound_of_reachable {t : Table K V} (h : Reachable t) : t.Sound := by
  induction h with
  | made h => exact sound_of_made h
  | step _ hstep ih => exact sound_of_keeps ih (keeps_of_leads hstep)

end Table

end FlatTable

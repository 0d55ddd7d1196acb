import FlatTable.Proofs.Succession

/-!
# Requests and what becomes of their tables

Each request to a table leaves the table it was made of, in a greater generation if and only if the request clears it. A table is cleared by itself, through a view of its keys, or through the view of a writing section; a list of requests clears it if it comes to one that does before anything breaks it off.
-/

namespace FlatTable

variable {K V σ : Type}

/-- The requests of a list that are answered: all of them, or all up to one that breaks off the list. -/
def Reply.answered {ρ σ : Type} (answer : ρ → σ → Reply K V × σ) : List ρ → σ → List ρ
  | [], _ => []
  | r :: rs, s => r :: if (answer r s).1.abort?.isSome then [] else answered answer rs (answer r s).2

section Clears

variable [BEq K] [BEq V] [Bump V]

/-- Whether a request to a partial view clears the table. -/
def PartOp.Clears (access : Access) (op : PartOp K V σ) (t : Table K V) : Prop :=
  match op with
  | keys ops => access = .exclusive ∧ .clear ∈ Reply.answered (KeySetOp.answer access) ops t
  | values _ | entries _ => False

/-- Whether a request that may change a table clears it. -/
def Edit.Clears (e : Edit K V) (t : Table K V) : Prop :=
  match e with
  | clear => True
  | part access op => op.Clears access t
  | _ => False

/-- Whether an operation through the view of a section clears the table. -/
def ViewOp.Clears (access : Access) (op : ViewOp K V σ) (t : Table K V) : Prop :=
  match op with
  | clear => access = .exclusive
  | part op => op.Clears access t
  | _ => False

end Clears

/-! ### Lists of requests -/

theorem Reply.thins_sequence [BEq K] {ρ : Type} {answer : ρ → Table K V → Reply K V × Table K V} {C : ρ → Prop}
    (hanswer : ∀ r (t : Table K V), t.Thins (answer r t).2 (C r)) (requests : List ρ) (t : Table K V) :
    t.Thins (sequence answer requests t).2 (∃ r ∈ answered answer requests t, C r) := by
  -- The replies given so far are carried along and do not matter to the table.
  have hgo (replies : List (Reply K V)) :
      t.Thins (sequence.go answer requests t replies).2 (∃ r ∈ answered answer requests t, C r) := by
    induction requests generalizing t replies with
    | nil => exact (Table.Thins.refl t).congr (by simp [answered])
    | cons r rs ih =>
      have hfirst := hanswer r t
      rw [sequence.go]
      dsimp only
      split
      · rename_i why hwhy
        exact hfirst.congr (by simp [answered, hwhy])
      · rename_i hwhy
        exact (hfirst.trans (ih _ _)).congr (by simp [answered, hwhy])
  exact hgo []

section Requests

variable [BEq K] [EquivBEq K] [BEq V] [Bump V]

theorem KeySetOp.thins_answer (access : Access) (op : KeySetOp K V σ) (t : Table K V) :
    t.Thins (op.answer access t).2 (access = .exclusive ∧ op = .clear) := by
  cases op with
  | remove k => exact (KeySet.thins_remove ⟨⟨access, t⟩⟩ k).congr (by simp)
  | retainBy judge s => exact (KeySet.thins_retain ⟨⟨access, t⟩⟩ _ s).congr (by simp)
  | clear => exact (KeySet.thins_clear ⟨⟨access, t⟩⟩).congr (by simp)
  | _ => exact (Table.Thins.refl t).congr (by simp)

theorem ValuesOp.thins_answer (access : Access) (op : ValuesOp K V σ) (t : Table K V) :
    t.Thins (op.answer access t).2 False := by
  cases op with
  | remove v => exact ValuesView.thins_remove ⟨⟨access, t⟩⟩ v
  | removeAll vs => exact ValuesView.thins_removeAll ⟨⟨access, t⟩⟩ vs
  | retainBy judge s => exact ValuesView.thins_retain ⟨⟨access, t⟩⟩ _ s
  | _ => exact Table.Thins.refl t

omit [Bump V] in
theorem EntriesOp.thins_answer (access : Access) (op : EntriesOp K V) (t : Table K V) :
    t.Thins (op.answer access t).2 False := by
  cases op with
  | remove k v => exact EntrySet.thins_remove ⟨⟨access, t⟩⟩ k v
  | _ => exact Table.Thins.refl t

theorem PartOp.thins_answer (access : Access) (op : PartOp K V σ) (t : Table K V) :
    t.Thins (op.answer access t).2 (op.Clears access t) := by
  cases op with
  | keys ops =>
    have hops := Reply.thins_sequence (C := fun op => access = .exclusive ∧ op = .clear)
      (KeySetOp.thins_answer access) ops t
    exact hops.congr (by simp [Clears, and_comm])
  | values ops =>
    have hops := Reply.thins_sequence (C := fun _ => False) (ValuesOp.thins_answer access) ops t
    exact hops.congr (by simp [Clears])
  | entries ops =>
    have hops := Reply.thins_sequence (C := fun _ => False) (EntriesOp.thins_answer access) ops t
    exact hops.congr (by simp [Clears])

theorem CursorOp.thins_run (ops : List (CursorOp K V σ)) (t : Table K V) : t.Thins (run ops t).2 False :=
  Cursor.thins_walk (Reply.sequence_induction (fun op _ => walk_answer op) ops .start)

omit [EquivBEq K] [BEq V] in
theorem IterKind.thins_run (kind : IterKind) (take : Option Nat) (amount : Option V) (t : Table K V) :
    t.Thins (kind.run take amount t).2 False := by
  have htrace (calls : Nat) : t.Thins (Iter.trace (kind.call amount) calls t.iter).2.table False := by
    refine Iter.trace_preserves (P := fun it => t.Thins it.table False) ?_ calls (Table.Thins.refl t)
    intro it h
    rw [call]
    split
    · exact h.append (Iter.thins_nextModify it _)
    · rwa [Iter.nextPart, Iter.table_next]
  exact htrace _

omit [EquivBEq K] [BEq V] [Bump V] in
theorem Table.thins_mapValues (t : Table K V) (f : V → V) : t.Thins (t.mapValues f) False :=
  Iter.trace_preserves (P := fun it => t.Thins it.table False) (fun it h => h.append (Iter.thins_nextModify it f))
    t.size (Table.Thins.refl t)

omit [BEq V] [Bump V] in
theorem Edit.widens_obtainWith (t : Table K V) (k : K) (default : Option V) (change : Option (V → V)) :
    t.Widens (obtainWith t k default change).2 := by
  have hobtained := Table.widens_getOrInsert t k default
  rcases obtainWith_snd t k default change with hsame | ⟨loc, f, hchanged⟩
  · rwa [hsame]
  · rw [hchanged]
    exact hobtained.trans (Table.widens_modifyValueAt _ loc f)

theorem Edit.succeeds_answer (e : Edit K V) (t : Table K V) : t.Succeeds (e.answer t).2 (e.Clears t) := by
  cases e with
  | insert k v => exact (Table.widens_insert t k v).succeeds
  | extend pairs => exact (Table.widens_extend t pairs).succeeds
  | modify k amount => exact (Table.thins_modify t k fun v => Bump.bump v amount).succeeds
  | getOrInsert k default amount => exact (widens_obtainWith t k default _).succeeds
  | remove k => exact (Table.thins_remove t k).succeeds
  | removeEntry k => exact (Table.thins_removeEntry t k).succeeds
  | clear => exact (Table.thins_clear t).succeeds
  | retain p => exact (Table.thins_retain t p.keeping 0).succeeds
  | iterate kind take amount => exact (IterKind.thins_run kind take amount t).succeeds
  | cursor ops => exact (CursorOp.thins_run ops t).succeeds
  | part access op => exact (op.thins_answer access t).succeeds

theorem ViewOp.succeeds_answer (access : Access) (op : ViewOp K V σ) (t : Table K V) :
    t.Succeeds (op.answer access t).2 (op.Clears access t) := by
  cases access with
  | shared =>
    -- Reading leaves the table alone, and a request that would change it is refused.
    cases op with
    | part op => exact ((Table.Thins.refl t).congr (by cases op <;> simp [Clears, PartOp.Clears])).succeeds
    | _ => exact ((Table.Thins.refl t).congr (by simp [Clears])).succeeds
  | exclusive =>
    cases op with
    | insert k v => exact (Table.widens_insert t k v).succeeds
    | remove k => exact (Table.thins_remove t k).succeeds
    | clear => exact ((Table.thins_clear t).congr (by simp [Clears])).succeeds
    | part op => exact (op.thins_answer .exclusive t).succeeds
    | updateAll f => exact (Table.thins_mapValues t f).succeeds
    | update k f => exact (Table.thins_modify t k f).succeeds
    | findOrStore k default change =>
      rw [answer, onTable_findOrStore_snd]
      exact (Edit.widens_obtainWith t k default change).succeeds
    | retainBy f s => exact (Table.thins_retain t f s).succeeds
    | cursor ops => exact (CursorOp.thins_run ops t).succeeds
    | _ => exact (Table.Thins.refl t).succeeds

end Requests

theorem SharedOp.succeeds_answer [KeyKind K] [EquivBEq K] [ValueKind V] (op : SharedOp K V) (t : Table K V) :
    t.Succeeds (op.answer t).2 False := by
  cases op with
  | insert k v => exact (Edit.insert k v).succeeds_answer t
  | remove k => exact (Edit.remove k).succeeds_answer t
  | _ => exact (Table.Thins.refl t).succeeds

/-! ### Handles and entries -/

section Handles

variable [BEq K]

theorem EntryHandle.thins_modify (h : EntryHandle K) (t : Table K V) (f : V → V) : t.Thins (h.modify t f).2 False := by
  rw [modify]
  split
  · exact Table.Thins.refl t
  · exact Table.thins_modify t h.key f

theorem EntryHandle.thins_setValue (h : EntryHandle K) (t : Table K V) (v : V) : t.Thins (h.setValue t v).2 False := by
  have hmodify := thins_modify h t fun _ => v
  rw [setValue]
  rcases hset : (h.modify t fun _ => v) with ⟨e | ⟨old, _⟩, u⟩ <;> rw [hset] at hmodify <;> exact hmodify

theorem ScopedEntry.thins_setValue (e : ScopedEntry K) (scopes : Scopes) (viewScope : Nat) (t : Table K V) (v : V) :
    t.Thins (e.setValue scopes viewScope t v).2 False := by
  rw [setValue]
  split
  · exact Table.Thins.refl t
  · exact Table.thins_modify t e.key _

end Handles

/-! ### Tables that are made -/

section Made

variable [BEq K] [EquivBEq K] {hash : K → UInt64} {id : Nat} {t : Table K V}

omit [BEq K] [EquivBEq K] in
theorem Table.id_of_create {config : Config} (h : create hash config id = .ok t) : t.id = id := by
  rw [create] at h
  split at h
  · cases h
  · rw [← Except.ok.inj h]
    rfl

theorem Table.id_of_readyFor {count : Nat} {lf : LoadFactor} {ready : Table K V} {pairs : List (K × V)}
    (h : readyFor hash count lf id = .ok ready) (ht : t = ready.extend pairs) : t.id = id := by
  obtain ⟨config, -, h⟩ := exists_of_bind_eq_ok h
  rw [ht, (widens_extend ready pairs).id_eq, id_of_create h]

theorem Table.id_of_ofPersisted {declared : Nat} {lf : LoadFactor} {pairs : List (K × V)}
    (h : ofPersisted hash declared lf pairs id = .ok t) : t.id = id := by
  obtain ⟨ready, hready, ht⟩ := exists_ready_of_ofPersisted h
  exact id_of_readyFor hready ht

theorem Table.id_of_build {ε : Type} {form : Form K V ε} {refused : TableError → ε} {hint : Option Nat}
    (h : form.build refused hash hint id = .ok t) : t.id = id := by
  obtain ⟨ready, hready, ht⟩ := exists_ready_of_build h
  exact id_of_readyFor hready ht

end Made

theorem Maker.id_of_run [KeyKind K] [EquivBEq K] [ValueKind V] {hasher : Hasher} {id : Nat} {maker : Maker K V}
    {t : Table K V} (h : maker.run hasher id = .ok t) : t.id = id := by
  cases maker with
  | ofConfig config named => exact Table.id_of_create (eq_ok_of_mapError h)
  | collect pairs =>
    rw [← Except.ok.inj h]
    exact (Table.widens_extend _ pairs).id_eq
  | ofPersisted declared lf pairs => exact Table.id_of_ofPersisted (eq_ok_of_mapError h)
  | readFrom input =>
    obtain ⟨⟨elements, form⟩, -, h⟩ := exists_of_bind_eq_ok (eq_ok_of_mapError h)
    rcases hbroken : form.broken with - | e <;> simp only [hbroken] at h
    · split at h
      · cases h
      · exact Table.id_of_ofPersisted (eq_ok_of_mapError h)
    · cases h
  | decode input =>
    obtain ⟨⟨elements, form⟩, -, h⟩ := exists_of_bind_eq_ok (eq_ok_of_mapError h)
    exact Table.id_of_build h
  | ofText text =>
    obtain ⟨form, -, h⟩ := exists_of_bind_eq_ok (eq_ok_of_mapError h)
    exact Table.id_of_build h

end FlatTable

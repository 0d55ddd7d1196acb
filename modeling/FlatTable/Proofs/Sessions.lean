import FlatTable.Proofs.Reachable
import FlatTable.Session.Step

/-!
# The tables of a session

A session hands its tables to requests, to cursors and views, and to sections that may nest and break off. Whatever the requests are, each table that it keeps is a reachable one, and so what holds of reachable tables holds in every state of a session.
-/

namespace FlatTable

variable {K V σ : Type}

/-- What each request preserves, a list of requests preserves, also if one of them breaks it off. -/
theorem Reply.sequence_induction {ρ σ : Type} {answer : ρ → σ → Reply K V × σ} {P : σ → Prop}
    (hstep : ∀ r s, P s → P (answer r s).2) (requests : List ρ) {s : σ} (h : P s) :
    P (Reply.sequence answer requests s).2 := by
  have hgo (replies : List (Reply K V)) : P (sequence.go answer requests s replies).2 := by
    induction requests generalizing s replies with
    | nil => exact h
    | cons r rs ih =>
      have hnext := hstep r s h
      rw [sequence.go]
      dsimp only
      split
      · exact hnext
      · exact ih hnext _
  exact hgo []

/-! ### Requests to cursors, iterators and views -/

theorem Cursor.walk_sweepFrom {t : Table K V} (f : Callback σ K V) (fuel : Nat) (s : σ) {c : Cursor K V}
    (h : c.Walk t) (seen : List (K × V)) (removed : List (Except TableError (K × V))) :
    (sweepFrom f fuel s c seen removed).2.Walk t := by
  induction fuel generalizing s c seen removed with
  | zero => exact h
  | succ fuel ih =>
    have hnext := h.next
    rw [sweepFrom]
    rcases hc : c.next with ⟨e | ⟨k, v⟩, c₁⟩ <;> rw [hc] at hnext
    · exact hnext
    · dsimp only
      rcases f s k v with ⟨s', v', verdict⟩
      have hwritten := hnext.write fun _ => v'
      cases verdict with
      | keep => exact ih s' hwritten _ _
      | remove => exact ih s' hwritten.remove _ _
      | abort => exact hwritten

/-- What each call of an iterator preserves, any number of calls preserves. -/
theorem Iter.trace_preserves {P : Iter K V → Prop} {call : Iter K V → Option (K × V) × Iter K V}
    (hcall : ∀ it, P it → P (call it).2) (calls : Nat) {it : Iter K V} (h : P it) : P (trace call calls it).2 := by
  induction calls generalizing it with
  | zero => exact h
  | succ calls ih => exact ih (hcall it h)

theorem Iter.walk_trace {t : Table K V} (f : V → V) (calls : Nat) : (trace (·.nextModify f) calls t.iter).2.Walk t :=
  trace_preserves (P := Walk t) (fun _ h => h.next f) calls .start

section Requests

variable [BEq K] [BEq V] [Bump V]

theorem KeySetOp.reachable_answer (access : Access) (op : KeySetOp K V σ) {t : Table K V} (h : t.Reachable) :
    (op.answer access t).2.Reachable := by
  cases op with
  | remove k => exact h.step (.removeKey access k)
  | retainBy judge s => exact h.step (.retainKeys access _ s)
  | clear => exact h.step (.clearKeys access)
  | _ => exact h

theorem ValuesOp.reachable_answer (access : Access) (op : ValuesOp K V σ) {t : Table K V} (h : t.Reachable) :
    (op.answer access t).2.Reachable := by
  cases op with
  | remove v => exact h.step (.removeValue access v)
  | removeAll vs => exact h.step (.removeValues access vs)
  | retainBy judge s => exact h.step (.retainValues access _ s)
  | _ => exact h

omit [Bump V] in
theorem EntriesOp.reachable_answer (access : Access) (op : EntriesOp K V) {t : Table K V} (h : t.Reachable) :
    (op.answer access t).2.Reachable := by
  cases op with
  | remove k v => exact h.step (.removePair access k v)
  | _ => exact h

theorem PartOp.reachable_answer (access : Access) (op : PartOp K V σ) {t : Table K V} (h : t.Reachable) :
    (op.answer access t).2.Reachable := by
  cases op with
  | keys ops => exact Reply.sequence_induction (fun op _ => KeySetOp.reachable_answer access op) ops h
  | values ops => exact Reply.sequence_induction (fun op _ => ValuesOp.reachable_answer access op) ops h
  | entries ops => exact Reply.sequence_induction (fun op _ => EntriesOp.reachable_answer access op) ops h

theorem CursorOp.walk_answer {t : Table K V} (op : CursorOp K V σ) {c : Cursor K V} (h : c.Walk t) :
    (op.answer c).2.Walk t := by
  cases op with
  | hasNext => exact h
  | remaining => exact h
  | advance change =>
    have hnext := h.next
    rw [answer]
    rcases hc : c.next with ⟨e | ⟨k, v⟩, c'⟩ <;> rw [hc] at hnext
    · exact hnext
    · dsimp only
      split
      · exact hnext
      · exact hnext.write _
  | remove => exact h.remove
  | sweepBy f s =>
    have hswept : (c.sweep f s).2.Walk t := Cursor.walk_sweepFrom f _ s h [] []
    rw [answer]
    rcases hs : c.sweep f s with ⟨- | swept, c'⟩ <;> rw [hs] at hswept <;> exact hswept

theorem CursorOp.leads_run (ops : List (CursorOp K V σ)) (t : Table K V) : t.Leads (run ops t).2 :=
  .cursor (Reply.sequence_induction (fun op _ => walk_answer op) ops .start)

omit [BEq V] in
theorem IterKind.leads_run (kind : IterKind) (take : Option Nat) (amount : Option V) (t : Table K V) :
    t.Leads (kind.run take amount t).2 := by
  have htrace (calls : Nat) : t.Leads (Iter.trace (kind.call amount) calls t.iter).2.table := by
    rw [call]
    split
    · exact .iterate (Iter.walk_trace _ calls)
    · have hsame : (Iter.trace (Iter.nextPart id) calls t.iter).2.table = t :=
        Iter.trace_preserves (P := (·.table = t)) (fun it h => (Iter.table_next it).trans h) calls rfl
      rw [hsame]
      exact .iterate .start
  exact htrace _

/-! ### Requests to tables -/

omit [BEq V] [Bump V] in
/-- What finds or stores a value leaves the table as that leaves it, or with one value changed since. -/
theorem Edit.obtainWith_snd (t : Table K V) (k : K) (default : Option V) (change : Option (V → V)) :
    (obtainWith t k default change).2 = (t.getOrInsert k default).2 ∨
      ∃ loc f, (obtainWith t k default change).2 = (t.getOrInsert k default).2.modifyValueAt loc f := by
  have hchanged (u : Table K V) (loc : Location) : change.elim u (u.modifyValueAt loc) = u ∨
      ∃ place f, change.elim u (u.modifyValueAt loc) = u.modifyValueAt place f := by
    cases change with
    | none => exact .inl rfl
    | some f => exact .inr ⟨loc, f, rfl⟩
  rw [obtainWith]
  rcases t.getOrInsert k default with ⟨loc | loc | _, u⟩
  · dsimp only
    split <;> exact hchanged u loc
  · dsimp only
    split <;> exact hchanged u loc
  · exact .inl rfl

omit [BEq V] [Bump V] in
theorem Edit.reachable_obtainWith (k : K) (default : Option V) (change : Option (V → V)) {t : Table K V}
    (h : t.Reachable) : (obtainWith t k default change).2.Reachable := by
  have hobtained := h.step (.getOrInsert k default)
  rcases obtainWith_snd t k default change with hsame | ⟨loc, f, hchanged⟩
  · rwa [hsame]
  · rw [hchanged]
    exact hobtained.step (.write loc f)

theorem Edit.reachable_answer (e : Edit K V) {t : Table K V} (h : t.Reachable) : (e.answer t).2.Reachable := by
  cases e with
  | insert k v => exact h.step (.insert k v)
  | extend pairs => exact h.step (.extend pairs)
  | modify k amount => exact h.step (.modify k fun v => Bump.bump v amount)
  | getOrInsert k default amount => exact reachable_obtainWith k default _ h
  | remove k => exact h.step (.remove k)
  | removeEntry k => exact h.step (.removeEntry k)
  | clear => exact h.step .clear
  | retain p => exact h.step (.retain p.keeping 0)
  | iterate kind take amount => exact h.step (IterKind.leads_run kind take amount t)
  | cursor ops => exact h.step (CursorOp.leads_run ops t)
  | part access op => exact op.reachable_answer access h

theorem ViewOp.onTable_findOrStore_snd (k : K) (default : Option V) (change : OnCall K V (Option (V → V)))
    (t : Table K V) :
    ((findOrStore k default change : ViewOp K V σ).onTable t).2 = (Edit.obtainWith t k default change).2 := by
  rw [onTable]
  rcases Edit.obtainWith t k default change with ⟨reply, u⟩
  cases reply <;> rfl

theorem ViewOp.reachable_answer (access : Access) (op : ViewOp K V σ) {t : Table K V} (h : t.Reachable) :
    (op.answer access t).2.Reachable := by
  cases access with
  | shared => exact h
  | exclusive =>
    cases op with
    | insert k v => exact h.step (.insert k v)
    | remove k => exact h.step (.remove k)
    | clear => exact h.step .clear
    | part op => exact op.reachable_answer .exclusive h
    | updateAll f => exact h.step (.iterate (Iter.walk_trace f _))
    | update k f => exact h.step (.modify k f)
    | findOrStore k default change =>
      rw [answer, onTable_findOrStore_snd]
      exact Edit.reachable_obtainWith k default change h
    | retainBy f s => exact h.step (.retain f s)
    | cursor ops => exact h.step (CursorOp.leads_run ops t)
    | _ => exact h

theorem SharedOp.reachable_answer {K V : Type} [KeyKind K] [ValueKind V] (op : SharedOp K V) {t : Table K V}
    (h : t.Reachable) : (op.answer t).2.Reachable := by
  cases op with
  | insert k v => exact (Edit.insert k v).reachable_answer h
  | remove k => exact (Edit.remove k).reachable_answer h
  | _ => exact h

end Requests

/-! ### Names -/

theorem Registry.exists_mem_of_find? {α : Type} {r : Registry α} {name : String} {a : α} (h : r.find? name = some a) :
    ∃ entry ∈ r.entries, entry.2 = a := by
  obtain ⟨entries⟩ := r
  rw [find?] at h
  induction entries with
  | nil => simp at h
  | cons entry entries ih =>
    rw [List.lookup_cons] at h
    split at h
    · exact ⟨entry, List.mem_cons_self, Option.some.inj h⟩
    · obtain ⟨entry', hmem, ha⟩ := ih h
      exact ⟨entry', List.mem_cons_of_mem entry hmem, ha⟩

theorem Registry.find?_erase_of_ne {α : Type} (r : Registry α) {name other : String} (h : other ≠ name) :
    (r.erase name).find? other = r.find? other := by
  obtain ⟨entries⟩ := r
  show (entries.filter fun entry => entry.1 ≠ name).lookup other = entries.lookup other
  induction entries with
  | nil => rfl
  | cons entry entries ih =>
    by_cases hname : entry.1 = name
    · have hskip : (other == entry.1) = false := by simpa [hname] using h
      rw [List.filter_cons_of_neg (by simpa using hname), ih, List.lookup_cons, hskip]
    · rw [List.filter_cons_of_pos (by simpa using hname), List.lookup_cons, List.lookup_cons, ih]

theorem Registry.find?_set {α : Type} (r : Registry α) (name other : String) (a : α) :
    (r.set name a).find? other = if other = name then some a else r.find? other := by
  have hcons : (r.set name a).find? other = match other == name with
      | true => some a
      | false => (r.erase name).find? other := List.lookup_cons
  rw [hcons]
  by_cases h : other = name
  · rw [if_pos h, beq_iff_eq.mpr h]
  · rw [if_neg h, beq_eq_false_iff_ne.mpr h]
    exact r.find?_erase_of_ne h

/-! ### Sessions -/

/-- Whether an operation of a section opens no other section. -/
def SectionOp.isAtomic : SectionOp K V σ → Bool
  | .nested .. => false
  | _ => true

theorem Scopes.check_of_isLive {s : Scopes} {scope : Nat} (h : s.isLive scope = true) : s.check scope = .ok () := by
  rw [check, if_pos h]

namespace Session

/-- A table that is given up and kept again under its name leaves the other tables alone. -/
theorem find?_keep_release (s : Session K V) (name other : String) (isShared : Bool) (t : Table K V) :
    ((s.release name).keep name isShared t).tables.find? other =
      if other = name then some ⟨isShared, t⟩ else s.tables.find? other := by
  show ((s.tables.erase name).set name ⟨isShared, t⟩).find? other = _
  rw [Registry.find?_set]
  by_cases h : other = name
  · rw [if_pos h, if_pos h]
  · rw [if_neg h, if_neg h, Registry.find?_erase_of_ne _ h]

theorem find?_of_shared? {s : Session K V} {name : String} {t : Table K V} (h : s.shared? name = some t) :
    s.tables.find? name = some ⟨true, t⟩ := by
  rw [shared?] at h
  split at h
  · rename_i hfind
    rw [hfind, Option.some.inj h]
  · simp at h

theorem find?_eq_ite {s : Session K V} {table : String} {t : Table K V} (ht : s.shared? table = some t)
    (name : String) : s.tables.find? name = if name = table then some ⟨true, t⟩ else s.tables.find? name := by
  by_cases h : name = table
  · rw [if_pos h, h, find?_of_shared? ht]
  · rw [if_neg h]

theorem shared?_keep_release (s : Session K V) (name other : String) (t : Table K V) :
    ((s.release name).keep name true t).shared? other = if other = name then some t else s.shared? other := by
  rw [shared?, find?_keep_release]
  by_cases h : other = name
  · rw [if_pos h, if_pos h]
  · rw [if_neg h, if_neg h, shared?]

section Acts

variable [BEq K]

/-- What an operation of a section can do to a session without opening another section: keep an entry, or put another table in the place of the section's own. -/
inductive Acts (s : Session K V) (sec : OpenSection) : Session K V → Prop
  | entries (entries : Registry (ScopedEntry K)) : Acts s sec { s with entries := entries }
  | table {t u : Table K V} (ht : s.shared? sec.table = some t) (hu : t.Reachable → u.Reachable)
    (journal : List Event) :
    Acts s sec ((({ s with journal := journal } : Session K V).release sec.table).keep sec.table true u)

theorem acts_detach (s : Session K V) (sec : OpenSection) (k : K) (name : String) :
    s.Acts sec (s.detach sec k name).2 := by
  rw [detach]
  split
  · exact .entries s.entries
  · split
    · exact .entries s.entries
    · split
      · exact .entries s.entries
      · exact .entries _

theorem acts_entrySet (s : Session K V) (sec : OpenSection) (name : String) (v : V) :
    s.Acts sec (s.entrySet sec name v).2 := by
  rw [entrySet]
  split
  · rename_i e t _ ht _
    exact .table ht (fun hreachable => hreachable.step (.setByEntry e s.scopes sec.scope v)) s.journal
  · exact .entries s.entries

variable [BEq V] [Bump V]

theorem acts_viewOp (s : Session K V) (sec : OpenSection) (op : ViewOp K V σ) : s.Acts sec (s.viewOp sec op).2 := by
  rw [viewOp]
  split
  · exact .entries s.entries
  · rename_i t ht
    split
    · exact .entries s.entries
    · exact .table ht (op.reachable_answer sec.access) (s.journal ++ op.events sec.access t)

theorem acts_sectionOp (sec : OpenSection) (s : Session K V) {op : SectionOp K V σ} (h : op.isAtomic = true) :
    s.Acts sec (sectionOp sec s op).2 := by
  cases op with
  | view op => exact acts_viewOp s sec op
  | detach k name => exact acts_detach s sec k name
  | entrySet name v => exact acts_entrySet s sec name v
  | nested table access ops => exact Bool.noConfusion h
  | _ => exact .entries s.entries

mutual

theorem sectionOp_induction {P : Session K V → Prop} (hscopes : ∀ s scopes, P s → P { s with scopes := scopes })
    (hacts : ∀ {s sec s'}, s.Acts sec s' → P s → P s') (sec : OpenSection) {s : Session K V} (h : P s) :
    (op : SectionOp K V σ) → P (sectionOp sec s op).2
  | .nested table access ops => by
    rw [sectionOp]
    exact hscopes _ _ (sectionOps_induction hscopes hacts _ (hscopes s s.scopes.enter.2 h) ops)
  | .view _ | .isLive | .detach .. | .entryKey _ | .entryIsLive _ | .entryValue _ | .entrySet .. | .abort =>
    hacts (acts_sectionOp sec s rfl) h

/-- What single operations preserve, and the opening and the end of sections, a section preserves, also if it breaks off. -/
theorem sectionOps_induction {P : Session K V → Prop} (hscopes : ∀ s scopes, P s → P { s with scopes := scopes })
    (hacts : ∀ {s sec s'}, s.Acts sec s' → P s → P s') (sec : OpenSection) {s : Session K V} (h : P s) :
    (ops : List (SectionOp K V σ)) → P (sectionOps sec s ops).2
  | [] => h
  | op :: ops => by
    have hop := sectionOp_induction hscopes hacts sec h op
    rw [sectionOps]
    dsimp only
    split
    · exact hop
    · exact sectionOps_induction hscopes hacts sec hop ops

end

end Acts

section Invariant

variable [BEq K]

/-- All tables that a session keeps are reachable. -/
def AllReachable (s : Session K V) : Prop := ∀ entry ∈ s.tables.entries, entry.2.table.Reachable

variable {s : Session K V}

theorem reachable_of_find? (h : s.AllReachable) {name : String} {held : Held K V}
    (hfind : s.tables.find? name = some held) : held.table.Reachable := by
  obtain ⟨entry, hmem, rfl⟩ := Registry.exists_mem_of_find? hfind
  exact h entry hmem

theorem reachable_of_shared? (h : s.AllReachable) {name : String} {t : Table K V} (ht : s.shared? name = some t) :
    t.Reachable :=
  reachable_of_find? h (find?_of_shared? ht)

theorem reachable_of_plain? (h : s.AllReachable) {name : String} {t : Table K V} (ht : s.plain? name = some t) :
    t.Reachable := by
  rw [plain?] at ht
  split at ht
  · rename_i hfind
    rw [← Option.some.inj ht]
    exact reachable_of_find? h hfind
  · simp at ht

theorem allReachable_release (h : s.AllReachable) (name : String) : (s.release name).AllReachable := by
  intro entry hentry
  exact h entry (List.mem_of_mem_filter hentry)

theorem allReachable_keep (h : s.AllReachable) (name : String) (isShared : Bool) {t : Table K V} (ht : t.Reachable) :
    (s.keep name isShared t).AllReachable := by
  intro entry hentry
  rcases List.mem_cons.mp hentry with rfl | hentry
  · exact ht
  · exact h entry (List.mem_of_mem_filter hentry)

theorem allReachable_of_acts (h : s.AllReachable) {sec : OpenSection} {s' : Session K V} (hacts : s.Acts sec s') :
    s'.AllReachable := by
  cases hacts with
  | entries entries => exact h
  | table ht hu journal =>
    exact allReachable_keep (allReachable_release h sec.table) sec.table true (hu (reachable_of_shared? h ht))

/-- Whatever a section does, and also if it breaks off, the tables stay reachable. -/
theorem allReachable_sectionOps [BEq V] [Bump V] (sec : OpenSection) (h : s.AllReachable)
    (ops : List (SectionOp K V σ)) : (sectionOps sec s ops).2.AllReachable :=
  sectionOps_induction (fun _ _ h => h) (fun hacts h => allReachable_of_acts h hacts) sec h ops

end Invariant

section Steps

variable [KeyKind K] [ValueKind V]

theorem made_of_run {hasher : Hasher} {id : Nat} {maker : Maker K V} {t : Table K V}
    (h : maker.run hasher id = .ok t) : t.Made := by
  cases maker with
  | ofConfig config named => exact .create (eq_ok_of_mapError h)
  | collect pairs =>
    rw [← Except.ok.inj h]
    exact .collect _ pairs id
  | ofPersisted declared lf pairs => exact .ofPersisted (eq_ok_of_mapError h)
  | readFrom input => exact .readFrom (eq_ok_of_mapError h)
  | decode input => exact .decode (eq_ok_of_mapError h)
  | ofText text => exact .ofText (eq_ok_of_mapError h)

variable {s : Session K V}

theorem allReachable_editPlain (h : s.AllReachable) (name : String) (e : Edit K V) :
    (s.editPlain name e).2.AllReachable := by
  rw [editPlain]
  split
  · exact h
  · rename_i t ht
    have hanswer := e.reachable_answer (reachable_of_plain? h ht)
    exact allReachable_keep (allReachable_release h name) name false hanswer

omit [ValueKind V] in
theorem allReachable_editByHandle (h : s.AllReachable) (name handle : String)
    {change : EntryHandle K → Table K V → Reply K V × Table K V}
    (hchange : ∀ g (t : Table K V), t.Leads (change g t).2) :
    (s.editByHandle name handle change).2.AllReachable := by
  rw [editByHandle]
  split
  · rename_i g t _ ht
    have hreachable := (reachable_of_plain? h ht).step (hchange g t)
    exact allReachable_keep (allReachable_release h name) name false hreachable
  · exact h

omit [KeyKind K] [ValueKind V] in
theorem exists_keepHandles (s : Session K V) (stem : String) (hs : List (EntryHandle K)) :
    ∃ handles, s.keepHandles stem hs = { s with handles := handles } := by
  have hfold (n : Nat) (s : Session K V) : ∃ handles, (hs.foldl (fun (acc : Nat × Session K V) g =>
      (acc.1 + 1, { acc.2 with handles := acc.2.handles.set (stem ++ toString acc.1) g })) (n, s)).2 =
        { s with handles := handles } := by
    induction hs generalizing n s with
    | nil => exact ⟨s.handles, rfl⟩
    | cons g hs ih => exact ih (n + 1) { s with handles := s.handles.set (stem ++ toString n) g }
  exact hfold 0 s

theorem allReachable_step (h : s.AllReachable) (request : Step K V σ) : (s.step request).2.AllReachable := by
  cases request with
  | make table maker =>
    rw [step]
    dsimp only
    split
    · exact h
    · rename_i t hrun
      exact allReachable_keep h table false (.made (made_of_run hrun))
  | clone table copy =>
    rw [step]
    split
    · exact h
    · rename_i t ht
      exact allReachable_keep h copy false ((reachable_of_plain? h ht).step (.clone s.nextId))
  | query table q =>
    rw [step]
    split <;> exact h
  | edit table e => exact allReachable_editPlain h table e
  | drain table take =>
    rw [step]
    split
    · exact h
    · exact allReachable_release h table
  | compare table other =>
    rw [step]
    split <;> exact h
  | takeHandle table k handle =>
    rw [step]
    split
    · exact h
    · split <;> exact h
  | takeHandles table stem =>
    rw [step]
    split
    · exact h
    · rename_i t _
      obtain ⟨handles, hkept⟩ := exists_keepHandles s stem t.handles
      rw [hkept]
      exact h
  | handleKey handle =>
    rw [step]
    split <;> exact h
  | handleValue table handle =>
    rw [step]
    split <;> exact h
  | handleSet table handle v => exact allReachable_editByHandle h table handle fun g t => .setByHandle g v
  | handleModify table handle amount =>
    exact allReachable_editByHandle h table handle fun g t => .modifyByHandle g _
  | handleIsLive table handle =>
    rw [step]
    split <;> exact h
  | handleEquals handle other =>
    rw [step]
    split <;> exact h
  | share table =>
    rw [step]
    split
    · exact h
    · rename_i t ht
      exact allReachable_keep h table true (reachable_of_plain? h ht)
  | unshare table =>
    rw [step]
    split
    · exact h
    · rename_i t ht
      exact allReachable_keep h table false (reachable_of_shared? h ht)
  | shared table op =>
    rw [step]
    split
    · exact h
    · rename_i t ht
      exact allReachable_keep (allReachable_release h table) table true
        (op.reachable_answer (reachable_of_shared? h ht))
  | runSection table access ops =>
    rw [step]
    split
    · exact h
    · rw [runSection]
      exact allReachable_sectionOps ⟨s.scopes.enter.1, table, access⟩ (s := { s with scopes := s.scopes.enter.2 }) h ops
  | entryKey entry => exact h
  | entryIsLive entry => exact h

theorem allReachable_run (requests : List (Step K V σ)) (h : s.AllReachable) : (s.run requests).2.AllReachable := by
  induction requests generalizing s with
  | nil => exact h
  | cons request requests ih => exact ih (allReachable_step h request)

end Steps

end Session

/-! ### Soundness in every state -/

namespace Table

/-- The table has met the largest capacity and given up growing. -/
def Saturated (t : Table K V) : Prop := maxCapacity ≤ t.capacity ∧ t.maxSize = wordLimit - 1

/-- The threshold is the capacity times the exact load factor, rounded down and less than the capacity, unless the table has given up growing. -/
def ExactThreshold (t : Table K V) : Prop :=
  ¬t.Saturated → t.maxSize = min (t.capacity - 1) ⌊(t.capacity : ℚ) * t.loadFactor.value⌋₊

theorem exactThreshold_of_sound [BEq K] {t : Table K V} (h : t.Sound) : t.ExactThreshold := by
  intro hgrows
  rcases h.layout.maxSize_eq with hsize | hsaturated
  · rw [hsize, LoadFactor.maxSize_eq_floor h.loadFactor_isValid]
  · exact absurd hsaturated hgrows

end Table

/-- The layout invariant holds of every table that operations lead to, and of every table that a session keeps, whatever was asked of it in whatever sections. -/
theorem layoutInvariant_everywhere :
    (∀ {K V : Type} [BEq K] [EquivBEq K] {t : Table K V}, t.Reachable → t.LayoutInvariant ∧ t.ExactThreshold) ∧
      ∀ {K V σ : Type} [KeyKind K] [EquivBEq K] [ValueKind V] (hasher : Hasher) (requests : List (Step K V σ))
        {name : String} {held : Held K V},
        (Session.run { hasher := hasher } requests).2.tables.find? name = some held →
          held.table.LayoutInvariant ∧ held.table.ExactThreshold := by
  constructor
  · intro K V _ _ t h
    have hsound := Table.sound_of_reachable h
    exact ⟨hsound.layout, Table.exactThreshold_of_sound hsound⟩
  · intro K V σ _ _ _ hasher requests name held hfind
    have hall : ({ hasher := hasher } : Session K V).AllReachable := fun entry hentry => absurd hentry List.not_mem_nil
    have hreachable := Session.reachable_of_find? (Session.allReachable_run requests hall) hfind
    have hsound := Table.sound_of_reachable hreachable
    exact ⟨hsound.layout, Table.exactThreshold_of_sound hsound⟩

/-- Keys that all collide, after a default that aborted, and a session whose section is broken off by one. -/
theorem layoutInvariant_everywhere_colliding :
    (∃ t : Table Nat Nat,
        t = (((Table.build (fun _ => 7) .standard 0).extend [(1, 10), (2, 20), (3, 30)]).getOrInsert 4 none).2 ∧
          t.Reachable ∧ t.LayoutInvariant ∧ t.ExactThreshold) ∧
      ∃ requests : List (Step UInt64 Int64), requests = [.make "t" (.ofConfig .standard none), .share "t",
          .runSection "t" .exclusive [.view (.insert 1 2), .view (.findOrStore 3 none none), .view .clear]] ∧
        ∃ held, (Session.run { hasher := .identity } requests).2.tables.find? "t" = some held ∧ held.table.size = 1 ∧
          held.table.LayoutInvariant ∧ held.table.ExactThreshold := by
  constructor
  · have hmade := Table.Made.collect (fun _ : Nat => 7) [(1, 10), (2, 20), (3, 30)] 0
    have hreachable := (Table.Reachable.made hmade).step (.getOrInsert 4 none)
    exact ⟨_, rfl, hreachable, layoutInvariant_everywhere.1 hreachable⟩
  · obtain ⟨requests, hrequests⟩ : ∃ requests : List (Step UInt64 Int64), requests =
        [.make "t" (.ofConfig .standard none), .share "t", .runSection "t" .exclusive
          [.view (.insert 1 2), .view (.findOrStore 3 none none), .view .clear]] := ⟨_, rfl⟩
    have hsize : ((Session.run { hasher := .identity } requests).2.tables.find? "t").map (·.table.size) = some 1 := by
      rw [hrequests]
      decide +kernel
    obtain ⟨held, hfind, hone⟩ := Option.map_eq_some_iff.mp hsize
    exact ⟨requests, hrequests, held, hfind, hone, layoutInvariant_everywhere.2 _ _ hfind⟩

end FlatTable

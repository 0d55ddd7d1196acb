import FlatTable.Proofs.Moments

/-!
# Entries stay in their sections

An entry that was detached in a section answers there from the current value of its key. The views of other sections are refused whatever the entry names, and once its own section has ended, done or broken off, nothing accepts the entry any more. A refused call changes nothing.
-/

namespace FlatTable

variable {K V σ : Type}

/-- The value of a key as an entry reads it: an entry whose key is absent is stale. -/
def Table.current [BEq K] (t : Table K V) (k : K) : Reply K V :=
  match t.get? k with
  | some v => .value v
  | none => .refused .staleEntry

/-! ### Checking scopes -/

namespace Scopes

variable {s : Scopes} {scope viewScope : Nat}

theorem check_of_not_isLive (h : ¬s.isLive scope = true) : s.check scope = .error .staleView := by rw [check, if_neg h]

theorem checkSame_of_isLive (h : s.isLive scope = true) : s.checkSame scope scope = .ok () := by
  rw [checkSame, h, beq_self_eq_true]
  rfl

theorem checkSame_of_not_isLive (h : ¬s.isLive scope = true) : s.checkSame scope viewScope = .error .staleView := by
  rw [checkSame, if_neg (by simp [h])]

theorem checkSame_of_ne (h : scope ≠ viewScope) : s.checkSame scope viewScope = .error .staleView := by
  rw [checkSame, if_neg (by simp [h])]

end Scopes

/-! ### Reading and storing through an entry -/

namespace ScopedEntry

variable [BEq K] {e : ScopedEntry K} {scopes : Scopes} {scope : Nat} {t : Table K V}

theorem ofExcept_value (h : scopes.checkSame e.scope scope = .ok ()) :
    Reply.ofExcept .value (e.value scopes scope t) = t.current e.key := by
  rw [value, h, Table.current]
  rcases t.get? e.key with - | v <;> rfl

theorem value_of_checkSame_eq_error {why : TableError} (h : scopes.checkSame e.scope scope = .error why) :
    e.value scopes scope t = .error why := by
  rw [value, h]
  rfl

/-- Storing answers as reading does. -/
theorem setValue_fst (v : V) : (e.setValue scopes scope t v).1 = e.value scopes scope t := by
  rw [setValue]
  split <;> rename_i hvalue <;> exact hvalue.symm

theorem setValue_of_error {why : TableError} (h : e.value scopes scope t = .error why) (v : V) :
    e.setValue scopes scope t v = (.error why, t) := by
  rw [setValue, h]

theorem setValue_snd (hlayout : t.LayoutInvariant) (h : scopes.checkSame e.scope scope = .ok ()) (v : V) :
    (e.setValue scopes scope t v).2 = (t.modify e.key fun _ => v).2 := by
  rcases hvalue : e.value scopes scope t with why | old
  · -- Only an absent key is refused here, and changing its value changes nothing.
    have hstale : Reply.refused why = t.current e.key := by rw [← ofExcept_value h, hvalue, Reply.ofExcept]
    rw [setValue_of_error hvalue]
    rcases hget : t.get? e.key with - | x
    · rw [Table.modify_of_get?_eq_none hlayout hget]
    · rw [Table.current, hget] at hstale
      simp at hstale
  · rw [setValue, hvalue]

end ScopedEntry

namespace Session

variable [BEq K] {s : Session K V} {view : OpenSection} {name : String} {e : ScopedEntry K} {t : Table K V}

theorem entryValue_eq (hentry : s.entries.find? name = some e) (ht : s.shared? view.table = some t) :
    s.entryValue view name = .ofExcept .value (e.value s.scopes view.scope t) := by
  rw [entryValue, hentry, ht]

theorem entrySet_eq (hentry : s.entries.find? name = some e) (ht : s.shared? view.table = some t)
    (haccess : view.access = .exclusive) (v : V) :
    s.entrySet view name v = (.ofExcept .value (e.setValue s.scopes view.scope t v).1,
      (s.release view.table).keep view.table true (e.setValue s.scopes view.scope t v).2) := by
  rw [entrySet, hentry, ht, haccess]
  rfl

/-- Storing that is refused changes no table. -/
theorem find?_entrySet_of_refused {v : V} {why : TableError} (h : (s.entrySet view name v).1 = .refused why)
    (table : String) : (s.entrySet view name v).2.tables.find? table = s.tables.find? table := by
  rw [entrySet] at h ⊢
  split at h
  · rename_i e t _ ht _
    rcases hvalue : e.value s.scopes view.scope t with why' | old
    · show ((s.release view.table).keep view.table true (e.setValue s.scopes view.scope t v).2).tables.find? table = _
      rw [ScopedEntry.setValue_of_error hvalue, find?_keep_release, ← find?_eq_ite ht]
    · have hold : (e.setValue s.scopes view.scope t v).1 = .ok old := by rw [ScopedEntry.setValue_fst, hvalue]
      change Reply.ofExcept Reply.value (e.setValue s.scopes view.scope t v).1 = _ at h
      simp [hold, Reply.ofExcept] at h
  · rfl

/-- While a section runs, the entry of a key that is present carries the stored key and the section's scope. -/
theorem detach_eq {sec : OpenSection} (hlive : s.scopes.isLive sec.scope = true) (ht : s.shared? sec.table = some t)
    {k : K} {p : K × V} (hp : t.getEntry? k = some p) (name : String) :
    s.detach sec k name = (.flag true, { s with entries := s.entries.set name ⟨p.1, sec.scope⟩ }) := by
  rw [detach, ht, Scopes.check_of_isLive hlive]
  dsimp only
  rw [ScopedEntry.detach, hp]
  rfl

/-! ### Tables under sections -/

theorem isSome_shared?_of_acts {s' : Session K V} {sec : OpenSection} (hacts : s.Acts sec s') {other : String}
    (h : (s.shared? other).isSome = true) : (s'.shared? other).isSome = true := by
  cases hacts with
  | entries entries => exact h
  | table ht hu journal =>
    rw [shared?_keep_release]
    split
    · rfl
    · exact h

/-- Whatever sections do, a table that was shared stays so. -/
theorem isSome_shared?_sectionOps [BEq V] [Bump V] (sec : OpenSection) {other : String}
    (h : (s.shared? other).isSome = true) (ops : List (SectionOp K V σ)) :
    ((sectionOps sec s ops).2.shared? other).isSome = true :=
  sectionOps_induction (P := fun s => (s.shared? other).isSome = true) (fun _ _ h => h)
    (fun hacts h => isSome_shared?_of_acts hacts h) sec h ops

end Session

namespace Moment

/-! ### Entries at a moment -/

variable [KeyKind K] [EquivBEq K] [ValueKind V]

/-- Whatever table it holds, the view of a section is refused by the entry of a name. -/
def RefusesView (m : Moment K V) (view : OpenSection) (name : String) : Prop :=
  ∀ t, m.session.shared? view.table = some t → m.session.entryValue view name = .refused .staleView ∧
    (view.access = .exclusive → ∀ v, (m.session.entrySet view name v).1 = .refused .staleView)

/-- What the entry of a section does at a moment, under a name that it is kept under. -/
structure Confines (m : Moment K V) (sec : OpenSection) (e : ScopedEntry K) (name : String) : Prop where
  live : sec ∈ m.running → m.session.entryKey name = .key e.key ∧ m.session.entryIsLive name = .flag true
  reads : sec ∈ m.running → ∀ t, m.session.shared? sec.table = some t →
    m.session.entryValue sec name = t.current e.key
  /-- Storing through the section's own view answers as reading does, and changes the value of the key alone. -/
  stores : sec ∈ m.running → sec.access = .exclusive → ∀ t, m.session.shared? sec.table = some t → ∀ v,
    (m.session.entrySet sec name v).1 = t.current e.key ∧
      ∃ u : Table K V, u.get? e.key = (t.get? e.key).map (fun _ => v) ∧
        u.toList = ((⟨t.toList⟩ : PairMap K V).modify (sameKey t.hash) e.key fun _ => v).pairs ∧
        ∀ table, (m.session.entrySet sec name v).2.tables.find? table =
          if table = sec.table then some ⟨true, u⟩ else m.session.tables.find? table
  others : ∀ view ∈ m.running, view ≠ sec → m.RefusesView view name
  ended : sec ∉ m.running → m.session.entryKey name = .refused .staleView ∧
    m.session.entryIsLive name = .flag false ∧ ∀ view, m.RefusesView view name
  /-- A refused call leaves every table as it is. -/
  unchanged : ∀ view v, ∀ op ∈ ([.entryKey name, .entryValue name, .entrySet name v] : List (SectionOp K V)), ∀ why,
    (Session.sectionOp view m.session op).1 = .refused why →
      ∀ table, (Session.sectionOp view m.session op).2.tables.find? table = m.session.tables.find? table

variable {m : Moment K V} {sec : OpenSection} {e : ScopedEntry K} {name : String}

omit [EquivBEq K] [ValueKind V] in
theorem refusesView_of_checkSame (hentry : m.session.entries.find? name = some e) {view : OpenSection}
    (h : m.session.scopes.checkSame e.scope view.scope = .error .staleView) : m.RefusesView view name := by
  intro t ht
  have hvalue : e.value m.session.scopes view.scope t = .error .staleView :=
    ScopedEntry.value_of_checkSame_eq_error h
  refine ⟨by rw [Session.entryValue_eq hentry ht, hvalue, Reply.ofExcept], ?_⟩
  intro haccess v
  rw [Session.entrySet_eq hentry ht haccess, ScopedEntry.setValue_of_error hvalue, Reply.ofExcept]

/-- An entry is confined to the one section that has its scope. -/
theorem confines_of_sound (h : m.Sound) (hscope : e.scope = sec.scope)
    (hown : ∀ view ∈ m.running, view.scope = sec.scope → view = sec)
    (hentry : m.session.entries.find? name = some e) : m.Confines sec e name := by
  have hlive : sec ∈ m.running → m.session.scopes.isLive e.scope = true := by
    intro hsec
    exact (isLive_iff h e.scope).mpr ⟨sec, hsec, hscope.symm⟩
  have hstale : sec ∉ m.running → ¬m.session.scopes.isLive e.scope = true := by
    intro hended hlive
    obtain ⟨view, hview, hviewScope⟩ := (isLive_iff h e.scope).mp hlive
    rw [hown view hview (hviewScope.trans hscope)] at hview
    exact hended hview
  have hsame : sec ∈ m.running → m.session.scopes.checkSame e.scope sec.scope = .ok () := by
    intro hsec
    rw [← hscope]
    exact Scopes.checkSame_of_isLive (hlive hsec)
  refine ⟨?_, ?_, ?_, ?_, ?_, ?_⟩
  · intro hsec
    rw [Session.entryKey, Session.entryIsLive, hentry]
    show Reply.ofExcept .key (e.key? m.session.scopes) = _ ∧ Reply.flag (m.session.scopes.isLive e.scope) = _
    rw [ScopedEntry.key?, Scopes.check_of_isLive (hlive hsec), hlive hsec]
    exact ⟨rfl, rfl⟩
  · intro hsec t ht
    rw [Session.entryValue_eq hentry ht, ScopedEntry.ofExcept_value (hsame hsec)]
  · intro hsec haccess t ht v
    have hlayout := (Table.sound_of_reachable (Session.reachable_of_shared? h.reachable ht)).layout
    rw [Session.entrySet_eq hentry ht haccess, ScopedEntry.setValue_fst, ScopedEntry.ofExcept_value (hsame hsec),
      ScopedEntry.setValue_snd hlayout (hsame hsec)]
    exact ⟨rfl, _, Table.get?_modify hlayout e.key _, Table.toList_modify hlayout e.key _, fun table =>
      Session.find?_keep_release m.session sec.table table true _⟩
  · intro view hview hne
    apply refusesView_of_checkSame hentry
    apply Scopes.checkSame_of_ne
    intro hviewScope
    exact hne (hown view hview (hviewScope.symm.trans hscope))
  · intro hended
    refine ⟨?_, ?_, ?_⟩
    · rw [Session.entryKey, hentry]
      show Reply.ofExcept .key (e.key? m.session.scopes) = _
      rw [ScopedEntry.key?, Scopes.check_of_not_isLive (hstale hended)]
      rfl
    · rw [Session.entryIsLive, hentry]
      show Reply.flag (m.session.scopes.isLive e.scope) = _
      rw [Bool.eq_false_iff.mpr (hstale hended)]
    · intro view
      exact refusesView_of_checkSame hentry (Scopes.checkSame_of_not_isLive (hstale hended))
  · intro view v op hop why hrefused table
    simp only [List.mem_cons, List.not_mem_nil, or_false] at hop
    rcases hop with rfl | rfl | rfl
    · rfl
    · rfl
    · exact Session.find?_entrySet_of_refused hrefused table

/-- Whatever requests are made and whatever sections run, an entry acts inside the section that detached it and nowhere else. The run may be cut at any moment: requests, and the operations of a section, are runs of moments too. -/
theorem scopedEntry_confined (hasher : Hasher) (hm : (start hasher).Reaches m) (hsec : sec ∈ m.running) {t : Table K V}
    (ht : m.session.shared? sec.table = some t) {k : K} {p : K × V} (hp : t.getEntry? k = some p) (name : String) :
    (∀ {σ : Type} (requests : List (Step K V σ)), m.Reaches ⟨(m.session.run requests).2, m.running⟩) ∧
      (∀ {σ : Type} (ops : List (SectionOp K V σ)),
        m.Reaches ⟨(Session.sectionOps sec m.session ops).2, m.running⟩ ∧
        ((Session.sectionOps sec m.session ops).2.shared? sec.table).isSome = true) ∧
      (m.session.detach sec k name).1 = .flag true ∧
      (m.act sec (.detach k name : SectionOp K V)).session.entries.find? name = some ⟨p.1, sec.scope⟩ ∧
      ∀ m', (m.act sec (.detach k name : SectionOp K V)).Reaches m' →
        (∀ name', m'.session.entries.find? name' = some ⟨p.1, sec.scope⟩ →
          m'.Confines sec ⟨p.1, sec.scope⟩ name') ∧
        (sec ∉ m'.running → ∀ m'', m'.Reaches m'' → sec ∉ m''.running) := by
  have hsound := sound_reaches (sound_start hasher) hm
  have hops {σ : Type} (ops : List (SectionOp K V σ)) := And.intro (reaches_sectionOps hsound hsec ops)
    (Session.isSome_shared?_sectionOps sec (by rw [ht]; rfl) ops)
  have hdetach := Session.detach_eq ((isLive_iff hsound sec.scope).mpr ⟨sec, hsec, rfl⟩) ht hp name
  have hkept : (m.session.detach sec k name).2.entries.find? name = some ⟨p.1, sec.scope⟩ := by
    rw [hdetach]
    exact (Registry.find?_set _ name name _).trans (if_pos rfl)
  refine ⟨reaches_run hsound, hops, by rw [hdetach], hkept, ?_⟩
  intro m' hlater
  have hreaches : m.Reaches m' := Relation.ReflTransGen.head (.act hsec rfl) hlater
  have hprecedes := precedes_reaches hreaches
  have hopened := hsound.opened sec hsec
  constructor
  · intro name' hentry
    refine confines_of_sound (sound_reaches hsound hreaches) rfl ?_ hentry
    -- A section that has the scope ran when the entry was detached, for scopes are not opened twice.
    intro view hview hviewScope
    rcases hprecedes.running view hview with hold | hnew
    · exact eq_of_scope_eq hsound hold hsec hviewScope
    · omega
  · intro hended m'' hreaches'
    exact not_mem_running_of_reaches hreaches' (hopened.trans_le hprecedes.opened) hended

/-- An entry of a writing section, inside of which a reading section of another table is open; then the first one is broken off. -/
theorem scopedEntry_confined_nested : ∃ (m : Moment UInt64 Int64) (sec view : OpenSection) (e : ScopedEntry UInt64),
    (start .identity).Reaches m ∧ m.running = [view, sec] ∧ (m.session.detach sec 1 "e").1 = .flag true ∧
      (m.act sec (.detach 1 "e" : SectionOp UInt64 Int64)).Confines sec e "e" ∧
      (m.act sec (.detach 1 "e" : SectionOp UInt64 Int64)).session.entryKey "e" = .key e.key ∧
      (m.act sec (.detach 1 "e" : SectionOp UInt64 Int64)).RefusesView view "e" ∧
      ((m.act sec (.detach 1 "e" : SectionOp UInt64 Int64)).leave sec).session.entryKey "e" = .refused .staleView := by
  obtain ⟨requests, hrequests⟩ : ∃ requests : List (Step UInt64 Int64), requests =
      [.make "a" (.ofConfig .standard none), .edit "a" (.insert 1 10), .share "a",
        .make "b" (.ofConfig .standard none), .share "b"] := ⟨_, rfl⟩
  obtain ⟨m, hm⟩ : ∃ m : Moment UInt64 Int64, m =
      (enter ⟨(Session.run { hasher := .identity } requests).2, []⟩ "a" .exclusive).enter "b" .shared := ⟨_, rfl⟩
  have hreaches : (start .identity).Reaches m := by
    rw [hm]
    exact ((reaches_run (sound_start .identity) requests).tail (.enter "a" .exclusive)).tail (.enter "b" .shared)
  have hrunning : m.running = [⟨1, "b", .shared⟩, ⟨0, "a", .exclusive⟩] := by
    rw [hm, hrequests]
    rfl
  have hsec : ⟨0, "a", .exclusive⟩ ∈ m.running := by simp [hrunning]
  have hview : ⟨1, "b", .shared⟩ ∈ m.running := by simp [hrunning]
  have hpresent : ((m.session.shared? "a").bind fun t => t.getEntry? 1) = some (1, 10) := by
    rw [hm, hrequests]
    decide +kernel
  obtain ⟨t, ht, hp⟩ := Option.bind_eq_some_iff.mp hpresent
  obtain ⟨-, -, hdetach, hkept, hlater⟩ := scopedEntry_confined .identity hreaches hsec ht hp "e"
  have hconfined := (hlater _ .refl).1 "e" hkept
  have hconfined' := (hlater _ (.single (.leave hsec))).1 "e" hkept
  have hended : ⟨0, "a", .exclusive⟩ ∉
      ((m.act ⟨0, "a", .exclusive⟩ (.detach 1 "e" : SectionOp UInt64 Int64)).leave ⟨0, "a", .exclusive⟩).running := by
    intro hmem
    simpa using List.of_mem_filter hmem
  exact ⟨m, _, _, _, hreaches, hrunning, hdetach, hconfined, (hconfined.live hsec).1,
    hconfined.others _ hview (by simp), (hconfined'.ended hended).1⟩

end Moment

end FlatTable

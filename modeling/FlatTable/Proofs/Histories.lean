import FlatTable.Proofs.Clearing
import FlatTable.Proofs.Moments

/-!
# Histories

A history lists what a session did, each move with the session as it was then. It tells which moves put another table under a name, or none, and which cleared the table that was there. As long as no move does the former, the table under a name is the same one; and no table ever has the identity of another.
-/

namespace FlatTable

variable {K V σ : Type}

/-- One thing that a session does between two moments. -/
inductive Move (K V : Type)
  | request {σ : Type} (request : Step K V σ)
  | enter (table : String) (access : Access)
  | act {σ : Type} (sec : OpenSection) (op : SectionOp K V σ)
  | leave (sec : OpenSection)

namespace Move

variable [KeyKind K] [ValueKind V]

/-- Whether a move puts another table in the place of the one under a name, or takes it away. -/
def Replaces (move : Move K V) (s : Session K V) (name : String) : Prop :=
  match move with
  | request (.make table maker) => name = table ∧ ∃ t, maker.run s.hasher s.nextId = .ok t
  | request (.clone table copy) => name = copy ∧ ∃ t, s.plain? table = some t
  | request (.drain table _) => name = table ∧ ∃ t, s.plain? table = some t
  | _ => False

/-- Whether a move clears the table under a name. -/
def Clears (move : Move K V) (s : Session K V) (name : String) : Prop :=
  match move with
  | request (.edit table e) => name = table ∧ ∃ t, s.plain? table = some t ∧ e.Clears t
  | act sec (.view op) => name = sec.table ∧ ∃ t, s.shared? sec.table = some t ∧ op.Clears sec.access t
  | _ => False

end Move

theorem Registry.find?_erase {α : Type} (r : Registry α) (name other : String) :
    (r.erase name).find? other = if other = name then none else r.find? other := by
  by_cases h : other = name
  · rw [if_pos h, h]
    refine List.lookup_eq_none_iff.mpr fun entry hentry => ?_
    have hother : entry.1 ≠ name := of_decide_eq_true (List.mem_filter.mp hentry).2
    exact bne_iff_ne.mpr hother.symm
  · rw [if_neg h, find?_erase_of_ne r h]

/-- The moves made so far, each with the session as it was then. -/
abbrev History (K V : Type) := List (Session K V × Move K V)

/-- The history of requests that are answered one after the other. -/
def Session.history [KeyKind K] [ValueKind V] (s : Session K V) : List (Step K V σ) → History K V
  | [] => []
  | request :: requests => (s, .request request) :: (s.step request).2.history requests

namespace Session

/-! ### What one move does to the tables -/

section Passes

variable [BEq K] {s s' : Session K V} {replaced cleared : String → Prop} {table : String}

/-- What a move makes of the table under a name. -/
inductive Fate (s s' : Session K V) (name : String) (replaced cleared : Prop) : Prop
  /-- A table that stands there instead has an identity of its own. -/
  | replaced (h : replaced) (hnew : ∀ held, s'.tables.find? name = some held →
      held.table.id = s.nextId ∧ s.nextId < s'.nextId) : Fate s s' name replaced cleared
  | absent (h : ¬replaced) (hold : s.tables.find? name = none) (hnew : s'.tables.find? name = none) :
      Fate s s' name replaced cleared
  | kept {held held' : Held K V} (h : ¬replaced) (hold : s.tables.find? name = some held)
      (hnew : s'.tables.find? name = some held') (hsucceeds : held.table.Succeeds held'.table cleared) :
      Fate s s' name replaced cleared

/-- What a move makes of the tables: it replaces one of them at most. -/
structure Passes (s s' : Session K V) (replaced cleared : String → Prop) : Prop where
  nextId_le : s.nextId ≤ s'.nextId
  replaced_unique : ∀ {name name'}, replaced name → replaced name' → name = name'
  fate : ∀ name, s.Fate s' name (replaced name) (cleared name)

theorem fate_of_find?_eq {name : String} {replaced cleared : Prop}
    (hfind : s'.tables.find? name = s.tables.find? name) (hreplaced : ¬replaced) (hcleared : ¬cleared) :
    s.Fate s' name replaced cleared := by
  rcases hold : s.tables.find? name with - | held <;> rw [hold] at hfind
  · exact .absent hreplaced hold hfind
  · have hsame : held.table.Succeeds held.table False := ⟨(Table.Thins.refl held.table).toFollows, fun _ _ _ hk _ => hk⟩
    exact .kept hreplaced hold hfind (by rwa [eq_false hcleared])

theorem passes_idle (hfind : ∀ name, s'.tables.find? name = s.tables.find? name) (hnext : s'.nextId = s.nextId)
    (hreplaced : ∀ name, ¬replaced name) (hcleared : ∀ name, ¬cleared name) : s.Passes s' replaced cleared where
  nextId_le := hnext.ge
  replaced_unique h := absurd h (hreplaced _)
  fate name := fate_of_find?_eq (hfind name) (hreplaced name) (hcleared name)

theorem passes_change {held held' : Held K V} {c : Prop} (hheld : s.tables.find? table = some held)
    (hfind : ∀ name, s'.tables.find? name = if name = table then some held' else s.tables.find? name)
    (hnext : s'.nextId = s.nextId) (hreplaced : ∀ name, ¬replaced name)
    (hcleared : ∀ name, cleared name ↔ name = table ∧ c) (hsucceeds : held.table.Succeeds held'.table c) :
    s.Passes s' replaced cleared where
  nextId_le := hnext.ge
  replaced_unique h := absurd h (hreplaced _)
  fate name := by
    by_cases hname : name = table
    · obtain rfl := hname
      have hc : cleared name ↔ c := (hcleared name).trans (and_iff_right rfl)
      exact .kept (hreplaced name) hheld ((hfind name).trans (if_pos rfl)) (by rwa [propext hc])
    · exact fate_of_find?_eq ((hfind name).trans (if_neg hname)) (hreplaced name)
        fun h => hname ((hcleared name).mp h).1

theorem passes_keep {held held' : Held K V} (hheld : s.tables.find? table = some held)
    (hfind : ∀ name, s'.tables.find? name = if name = table then some held' else s.tables.find? name)
    (hnext : s'.nextId = s.nextId) (hreplaced : ∀ name, ¬replaced name) (hcleared : ∀ name, ¬cleared name)
    (hsucceeds : held.table.Succeeds held'.table False) : s.Passes s' replaced cleared :=
  passes_change hheld hfind hnext hreplaced (fun name => iff_of_false (hcleared name) fun h => h.2) hsucceeds

/-- One table is put in the place of another, or taken away. -/
theorem passes_replace (table : String) (found : Option (Held K V))
    (hfind : ∀ name, s'.tables.find? name = if name = table then found else s.tables.find? name)
    (hnext : s.nextId ≤ s'.nextId) (hreplaced : ∀ name, replaced name ↔ name = table) (hcleared : ∀ name, ¬cleared name)
    (hnew : ∀ held, found = some held → held.table.id = s.nextId ∧ s.nextId < s'.nextId) :
    s.Passes s' replaced cleared where
  nextId_le := hnext
  replaced_unique h h' := ((hreplaced _).mp h).trans ((hreplaced _).mp h').symm
  fate name := by
    by_cases hname : name = table
    · refine .replaced ((hreplaced name).mpr hname) ?_
      rw [hfind, if_pos hname]
      exact hnew
    · exact fate_of_find?_eq ((hfind name).trans (if_neg hname)) (fun h => hname ((hreplaced name).mp h)) (hcleared name)

/-- A new table is put under a name. -/
theorem passes_make (table : String) {t : Table K V} (hid : t.id = s.nextId)
    (hfind : ∀ name, s'.tables.find? name = if name = table then some ⟨false, t⟩ else s.tables.find? name)
    (hnext : s'.nextId = s.nextId + 1) (hreplaced : ∀ name, replaced name ↔ name = table) (hcleared : ∀ name, ¬cleared name) :
    s.Passes s' replaced cleared := by
  refine passes_replace table _ hfind (by omega) hreplaced hcleared fun held hheld => ?_
  obtain rfl := Option.some.inj hheld
  exact ⟨hid, by omega⟩

end Passes

theorem find?_of_plain? {s : Session K V} {name : String} {t : Table K V} (h : s.plain? name = some t) :
    s.tables.find? name = some ⟨false, t⟩ := by
  rw [plain?] at h
  split at h
  · rename_i hfind
    rw [hfind, Option.some.inj h]
  · simp at h

section Steps

variable [KeyKind K] [EquivBEq K] [ValueKind V]

theorem passes_edit (s : Session K V) (table : String) (e : Edit K V) :
    s.Passes (s.editPlain table e).2 ((Move.request (.edit table e : Step K V σ)).Replaces s)
      ((Move.request (.edit table e : Step K V σ)).Clears s) := by
  rw [editPlain]
  split
  · rename_i hnone
    refine passes_idle (fun _ => rfl) rfl (fun _ h => h) ?_
    rintro name ⟨-, t, ht, -⟩
    simp [hnone] at ht
  · rename_i t ht
    refine passes_change (c := e.Clears t) (find?_of_plain? ht) (find?_keep_release _ table · false _) rfl
      (fun _ h => h) (fun name => ?_) (e.succeeds_answer t)
    exact and_congr_right fun _ => by simp [ht]

omit [ValueKind V] in
theorem passes_byHandle (s : Session K V) (table handle : String)
    {change : EntryHandle K → Table K V → Reply K V × Table K V} {replaced cleared : String → Prop}
    (hchange : ∀ h (t : Table K V), t.Thins (change h t).2 False) (hreplaced : ∀ name, ¬replaced name)
    (hcleared : ∀ name, ¬cleared name) : s.Passes (s.editByHandle table handle change).2 replaced cleared := by
  rw [editByHandle]
  split
  · rename_i h t _ ht
    exact passes_keep (find?_of_plain? ht) (find?_keep_release s table · false _) rfl hreplaced hcleared
      (hchange h t).succeeds
  · exact passes_idle (fun _ => rfl) rfl hreplaced hcleared

theorem passes_step (s : Session K V) {request : Step K V σ} (hatomic : request.isAtomic = true) :
    s.Passes (s.step request).2 ((Move.request request).Replaces s) ((Move.request request).Clears s) := by
  cases request with
  | make table maker =>
    rw [step]
    dsimp only
    split
    · rename_i reply hfailed
      refine passes_idle (fun _ => rfl) rfl ?_ fun _ h => h
      rintro name ⟨-, t, ht⟩
      exact absurd (hfailed.symm.trans ht) (by simp)
    · rename_i t ht
      exact passes_make table (Maker.id_of_run ht) (Registry.find?_set _ table · _) rfl
        (fun _ => and_iff_left ⟨t, ht⟩) fun _ h => h
  | clone table copy =>
    rw [step]
    split
    · rename_i hnone
      refine passes_idle (fun _ => rfl) rfl ?_ fun _ h => h
      rintro name ⟨-, t, ht⟩
      simp [hnone] at ht
    · rename_i t ht
      exact passes_make copy rfl (Registry.find?_set _ copy · _) rfl (fun _ => and_iff_left ⟨t, ht⟩) fun _ h => h
  | edit table e => exact passes_edit s table e
  | drain table take =>
    rw [step]
    split
    · rename_i hnone
      refine passes_idle (fun _ => rfl) rfl ?_ fun _ h => h
      rintro name ⟨-, t, ht⟩
      simp [hnone] at ht
    · rename_i t ht
      exact passes_replace table none (Registry.find?_erase s.tables table) (Nat.le_refl _)
        (fun _ => and_iff_left ⟨t, ht⟩) (fun _ h => h) fun _ hheld => by simp at hheld
  | takeHandle table k handle =>
    refine passes_idle (fun _ => ?_) ?_ (fun _ h => h) fun _ h => h
    all_goals
      rw [step]
      split
      · rfl
      · split <;> rfl
  | takeHandles table stem =>
    refine passes_idle (fun _ => ?_) ?_ (fun _ h => h) fun _ h => h
    all_goals
      rw [step]
      split
      · rfl
      · rename_i t _
        obtain ⟨handles, hkept⟩ := exists_keepHandles s stem t.handles
        rw [hkept]
  | handleSet table handle v =>
    exact passes_byHandle s table handle (fun h t => h.thins_setValue t v) (fun _ h => h) fun _ h => h
  | handleModify table handle amount =>
    exact passes_byHandle s table handle (fun h t => h.thins_modify t _) (fun _ h => h) fun _ h => h
  | share table =>
    rw [step]
    split
    · exact passes_idle (fun _ => rfl) rfl (fun _ h => h) fun _ h => h
    · rename_i t ht
      exact passes_keep (find?_of_plain? ht) (Registry.find?_set _ table · _) rfl (fun _ h => h) (fun _ h => h)
        (Table.Thins.refl t).succeeds
  | unshare table =>
    rw [step]
    split
    · exact passes_idle (fun _ => rfl) rfl (fun _ h => h) fun _ h => h
    · rename_i t ht
      exact passes_keep (find?_of_shared? ht) (Registry.find?_set _ table · _) rfl (fun _ h => h) (fun _ h => h)
        (Table.Thins.refl t).succeeds
  | shared table op =>
    rw [step]
    split
    · exact passes_idle (fun _ => rfl) rfl (fun _ h => h) fun _ h => h
    · rename_i t ht
      exact passes_keep (find?_of_shared? ht) (find?_keep_release _ table · true _) rfl (fun _ h => h) (fun _ h => h)
        (op.succeeds_answer t)
  -- A section is entered, acted in and left by moves of its own.
  | runSection table access ops => exact Bool.noConfusion hatomic
  | _ =>
    refine passes_idle (fun _ => ?_) ?_ (fun _ h => h) fun _ h => h
    all_goals
      rw [step]
      try split <;> rfl

/-- What an operation of a live section does, unless it opens another one. -/
theorem passes_sectionOp (s : Session K V) {sec : OpenSection} {op : SectionOp K V σ}
    (hlive : s.scopes.isLive sec.scope = true) (hatomic : op.isAtomic = true) :
    s.Passes (sectionOp sec s op).2 ((Move.act sec op).Replaces s) ((Move.act sec op).Clears s) := by
  cases op with
  | view op =>
    rw [sectionOp, viewOp]
    split
    · rename_i hnone
      refine passes_idle (fun _ => rfl) rfl (fun _ h => h) ?_
      rintro name ⟨-, t, ht, -⟩
      simp [hnone] at ht
    · rename_i t ht
      rw [Scopes.check_of_isLive hlive]
      dsimp only
      refine passes_change (c := op.Clears sec.access t) (find?_of_shared? ht) (find?_keep_release _ sec.table · true _) rfl
        (fun _ h => h) (fun name => ?_) (op.succeeds_answer sec.access t)
      exact and_congr_right fun _ => by simp [ht]
  | detach k name =>
    refine passes_idle (fun _ => ?_) ?_ (fun _ h => h) fun _ h => h
    all_goals
      rw [sectionOp, detach]
      split
      · rfl
      · split
        · rfl
        · split <;> rfl
  | entrySet name v =>
    rw [sectionOp, entrySet]
    split
    · rename_i e t _ ht _
      exact passes_keep (find?_of_shared? ht) (find?_keep_release s sec.table · true _) rfl (fun _ h => h)
        (fun _ h => h) (e.thins_setValue s.scopes sec.scope t v).succeeds
    · exact passes_idle (fun _ => rfl) rfl (fun _ h => h) fun _ h => h
  | nested table access ops => exact Bool.noConfusion hatomic
  | _ => exact passes_idle (fun _ => rfl) rfl (fun _ h => h) fun _ h => h

end Steps

end Session

namespace Session

/-! ### Identities -/

/-- No two tables have one identity, and a table made next will have another one. -/
structure Numbered (s : Session K V) : Prop where
  lt_nextId : ∀ {name held}, s.tables.find? name = some held → held.table.id < s.nextId
  injective : ∀ {name name' held held'}, s.tables.find? name = some held → s.tables.find? name' = some held' →
    held.table.id = held'.table.id → name = name'

variable [BEq K] {s s' : Session K V} {replaced cleared : String → Prop}

/-- A table found after a move is new or has the identity of the one before. -/
theorem Passes.id_cases (h : s.Passes s' replaced cleared) {name : String} {held' : Held K V}
    (hfind : s'.tables.find? name = some held') :
    (replaced name ∧ held'.table.id = s.nextId ∧ s.nextId < s'.nextId) ∨
      ¬replaced name ∧ ∃ held, s.tables.find? name = some held ∧ held'.table.id = held.table.id := by
  cases h.fate name with
  | replaced hreplaced hnew => exact .inl ⟨hreplaced, hnew held' hfind⟩
  | absent _ _ hnone => simp [hfind] at hnone
  | kept hkept hold hnew hsucceeds =>
    rw [hfind] at hnew
    obtain rfl := Option.some.inj hnew
    exact .inr ⟨hkept, _, hold, hsucceeds.id_eq⟩

theorem numbered_passes (h : s.Numbered) (hpasses : s.Passes s' replaced cleared) : s'.Numbered where
  lt_nextId hfind := by
    have hle := hpasses.nextId_le
    rcases hpasses.id_cases hfind with ⟨-, hid, hlt⟩ | ⟨-, held, hold, hid⟩
    · omega
    · have hlt := h.lt_nextId hold
      omega
  injective {name name' held held'} hfind hfind' hsame := by
    rcases hpasses.id_cases hfind with ⟨hr, hid, -⟩ | ⟨-, first, hfirst, hid⟩ <;>
      rcases hpasses.id_cases hfind' with ⟨hr', hid', -⟩ | ⟨-, second, hsecond, hid'⟩
    · exact hpasses.replaced_unique hr hr'
    · have hlt := h.lt_nextId hsecond
      omega
    · have hlt := h.lt_nextId hfirst
      omega
    · exact h.injective hfirst hsecond (by omega)

end Session

namespace Moment

/-! ### Moves and histories -/

section Moves

variable [KeyKind K] [ValueKind V] {m m' : Moment K V}

def after (m : Moment K V) : Move K V → Moment K V
  | .request request => m.request request
  | .enter table access => m.enter table access
  | .act sec op => m.act sec op
  | .leave sec => m.leave sec

/-- Whether a move can be made: a section that acts or ends is running. -/
def Allows (m : Moment K V) : Move K V → Prop
  | .request request => request.isAtomic = true
  | .enter .. => True
  | .act sec op => sec ∈ m.running ∧ op.isAtomic = true
  | .leave sec => sec ∈ m.running

theorem next_iff : m.Next m' ↔ ∃ move, m.Allows move ∧ m.after move = m' := by
  constructor
  · intro hnext
    cases hnext with
    | request h => exact ⟨.request _, h, rfl⟩
    | enter table access => exact ⟨.enter table access, trivial, rfl⟩
    | act hsec h => exact ⟨.act _ _, ⟨hsec, h⟩, rfl⟩
    | leave hsec => exact ⟨.leave _, hsec, rfl⟩
  · rintro ⟨move, hmove, rfl⟩
    cases move with
    | request request => exact .request hmove
    | enter table access => exact .enter table access
    | act sec op => exact .act hmove.1 hmove.2
    | leave sec => exact .leave hmove

/-- What was done between two moments. -/
inductive Runs (m : Moment K V) : History K V → Moment K V → Prop
  | start : Runs m [] m
  | move {past : History K V} {m' : Moment K V} (h : Runs m past m') {move : Move K V}
      (hmove : m'.Allows move) : Runs m (past ++ [(m'.session, move)]) (m'.after move)

theorem reaches_iff_exists_runs : m.Reaches m' ↔ ∃ past, m.Runs past m' := by
  constructor
  · intro hreaches
    induction hreaches with
    | refl => exact ⟨[], .start⟩
    | tail _ hnext ih =>
      obtain ⟨past, hruns⟩ := ih
      obtain ⟨move, hmove, rfl⟩ := next_iff.mp hnext
      exact ⟨_, hruns.move hmove⟩
  · rintro ⟨past, hruns⟩
    induction hruns with
    | start => exact .refl
    | move _ hmove ih => exact ih.tail (next_iff.mpr ⟨_, hmove, rfl⟩)

/-- Requests that open no section are moves one by one. -/
theorem Runs.requests {past : History K V} (h : m.Runs past m') (requests : List (Step K V σ))
    (hatomic : ∀ request ∈ requests, request.isAtomic = true) :
    m.Runs (past ++ m'.session.history requests) ⟨(m'.session.run requests).2, m'.running⟩ := by
  induction requests generalizing past m' with
  | nil =>
    rw [Session.history, List.append_nil]
    exact h
  | cons request requests ih =>
    obtain ⟨hfirst, hrest⟩ := List.forall_mem_cons.mp hatomic
    have hmove : m'.Allows (.request request) := hfirst
    have hruns := ih (h.move hmove) hrest
    rw [List.append_assoc] at hruns
    exact hruns

variable [EquivBEq K]

theorem passes_after (h : m.Sound) {move : Move K V} (hmove : m.Allows move) :
    m.session.Passes (m.after move).session (move.Replaces m.session) (move.Clears m.session) := by
  cases move with
  | request request => exact Session.passes_step m.session hmove
  | enter table access => exact Session.passes_idle (fun _ => rfl) rfl (fun _ h => h) fun _ h => h
  | act sec op => exact Session.passes_sectionOp m.session ((isLive_iff h sec.scope).mpr ⟨sec, hmove.1, rfl⟩) hmove.2
  | leave sec => exact Session.passes_idle (fun _ => rfl) rfl (fun _ h => h) fun _ h => h

theorem numbered_reaches (hsound : m.Sound) (h : m.session.Numbered) (hreaches : m.Reaches m') : m'.session.Numbered := by
  induction hreaches with
  | refl => exact h
  | tail hreaches hnext ih =>
    obtain ⟨move, hmove, rfl⟩ := next_iff.mp hnext
    exact Session.numbered_passes ih (passes_after (sound_reaches hsound hreaches) hmove)

end Moves

end Moment

/-! ### Following one table -/

/-- Whether a key is found in the table under a name. -/
def Session.Holds [BEq K] (s : Session K V) (name : String) (k : K) : Prop :=
  ∃ held, s.tables.find? name = some held ∧ held.table.contains k = true

instance [BEq K] (s : Session K V) (name : String) (k : K) : Decidable (s.Holds name k) :=
  decidable_of_iff ((s.tables.find? name).any fun held => held.table.contains k) (Option.any_eq_true _ _)

namespace History

variable [KeyKind K] [ValueKind V] (past : History K V) (s : Session K V) (move : Move K V) (name : String) (k : K)

/-- Whether another table, or none, was put under a name. -/
def Replaced : Prop := ∃ entry ∈ past, entry.2.Replaces entry.1 name

/-- Whether the table under a name was cleared. -/
def Cleared : Prop := ∃ entry ∈ past, entry.2.Clears entry.1 name

omit [ValueKind V] in
/-- Whether a key was found in the table under a name before each of the moves. -/
def Held : Prop := ∀ entry ∈ past, entry.1.Holds name k

theorem replaced_append : Replaced (past ++ [(s, move)]) name ↔ past.Replaced name ∨ move.Replaces s name := by
  simp [Replaced, or_and_right, exists_or]

theorem cleared_append : Cleared (past ++ [(s, move)]) name ↔ past.Cleared name ∨ move.Clears s name := by
  simp [Cleared, or_and_right, exists_or]

omit [ValueKind V] in
theorem held_append : Held (past ++ [(s, move)]) name k ↔ past.Held name k ∧ s.Holds name k := by
  simp [Held, or_imp, forall_and]

end History

namespace Moment

variable [KeyKind K] [EquivBEq K] [ValueKind V]

/-- What is known of the tables some moves after a table stood under a name. -/
structure Traces (t : Table K V) (name : String) (past : History K V) (m : Moment K V) : Prop where
  lt_nextId : t.id < m.session.nextId
  others : ∀ {name' held'}, m.session.tables.find? name' = some held' → name' ≠ name ∨ past.Replaced name →
    held'.table.id ≠ t.id
  own : ¬past.Replaced name → ∃ held, m.session.tables.find? name = some held ∧
    t.Follows held.table (past.Cleared name) ∧
    (¬past.Cleared name → ∀ k ∈ t.keys, past.Held name k → m.session.Holds name k → k ∈ held.table.keys)

variable {t : Table K V} {name : String} {past : History K V} {m m' : Moment K V} {held : Held K V}

omit [EquivBEq K] in
theorem traces_start (h : m.session.Numbered) (hheld : m.session.tables.find? name = some held) :
    Traces held.table name [] m where
  lt_nextId := h.lt_nextId hheld
  others {name' held'} hfind hother hsame := by
    rcases hother with hname | ⟨_, hmem, _⟩
    · exact hname (h.injective hfind hheld hsame)
    · simp at hmem
  own _ :=
    ⟨held, hheld, ((Table.Thins.refl held.table).congr (by simp [History.Cleared])).toFollows, fun _ _ hk _ _ => hk⟩

theorem traces_move (ht : t.LayoutInvariant) (h : Traces t name past m) (hsound : m.Sound) {move : Move K V}
    (hmove : m.Allows move) : Traces t name (past ++ [(m.session, move)]) (m.after move) := by
  have hpasses := passes_after hsound hmove
  refine ⟨h.lt_nextId.trans_le hpasses.nextId_le, ?_, ?_⟩
  · intro name' held' hfind hother hsame
    have hlt := h.lt_nextId
    rw [History.replaced_append, ← or_assoc] at hother
    rcases hpasses.id_cases hfind with ⟨-, hid, -⟩ | ⟨hkept, held, hold, hid⟩
    · omega
    · refine h.others hold (hother.elim id fun hreplaced => .inl ?_) (hid.symm.trans hsame)
      -- The table was there before the move, so the one that was replaced is another one.
      rintro rfl
      exact hkept hreplaced
  · intro hkept
    rw [History.replaced_append, not_or] at hkept
    obtain ⟨held, hheld, hfollows, hkeys⟩ := h.own hkept.1
    cases hpasses.fate name with
    | replaced hreplaced hnew => exact absurd hreplaced hkept.2
    | absent _ hnone hnew => simp [hheld] at hnone
    | @kept held₁ held' _ hold hnew hsucceeds =>
      obtain rfl : held = held₁ := Option.some.inj (hheld.symm.trans hold)
      have hlayout := hfollows.layout ht
      refine ⟨held', hnew, ?_, ?_⟩
      · rw [History.cleared_append]
        exact hfollows.trans hsucceeds.toFollows
      · intro hcleared k hk hpast hnow
        rw [History.cleared_append, not_or] at hcleared
        rw [History.held_append] at hpast
        obtain ⟨held'', hfind, hcontains⟩ := hnow
        obtain rfl : held' = held'' := Option.some.inj (hnew.symm.trans hfind)
        exact hsucceeds.stays hcleared.2 hlayout k (hkeys hcleared.1 k hk hpast.1 hpast.2) hcontains

theorem traces_runs (hsound : m.Sound) (h : m.session.Numbered) (hheld : m.session.tables.find? name = some held)
    (hruns : m.Runs past m') : Traces held.table name past m' := by
  have hlayout := (Table.sound_of_reachable (Session.reachable_of_find? hsound.reachable hheld)).layout
  induction hruns with
  | start => exact traces_start h hheld
  | move hruns hmove ih =>
    -- A section can act only while it is live, which the moment in between has to tell.
    exact traces_move hlayout ih (sound_reaches hsound (reaches_iff_exists_runs.mpr ⟨_, hruns⟩)) hmove

end Moment

end FlatTable

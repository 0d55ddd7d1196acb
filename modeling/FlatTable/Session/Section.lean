import FlatTable.Hash.Hasher
import FlatTable.Session.Edit
import FlatTable.Session.Registry
import FlatTable.Session.Scope
import FlatTable.Table.Handle

/-!
# Sections of shared tables

A session keeps tables, handles and entries under names. A section holds one of the shared tables
for a list of operations: a reading section refuses every change, a writing section allows all.
Sections of other tables may open inside. A section that is broken off ends like any other; what it
changed stays.
-/

namespace FlatTable

/-- A table of a session: plain, or shared between sections. -/
structure Held (K V : Type) where
  isShared : Bool
  table : Table K V

/-- Everything a run of requests keeps between them. -/
structure Session (K V : Type) where
  /-- The hasher of tables that are made without naming one. -/
  hasher : Hasher
  tables : Registry (Held K V) := {}
  handles : Registry (EntryHandle K) := {}
  entries : Registry (ScopedEntry K) := {}
  scopes : Scopes := {}
  /-- The identity of the next table. -/
  nextId : Nat := 1
  /-- The journal of the present request. -/
  journal : List Event := []

/-- Shows a pair to a callback, which may abort, and keeps a record of it. -/
def showPair {K V σ : Type} (f : σ → K → V → Option σ) (k : K) (v : V) :
    StateT (σ × List (K × V)) (Except Abort) Unit := do
  let (s, shown) ← get
  match f s k v with
  | none => throw .callback
  | some s => set (s, (k, v) :: shown)

/-- Shows the pairs to a callback until it aborts, and lists what it was shown if it does not. -/
def Table.showAll {K V σ : Type} (t : Table K V) (f : σ → K → V → Option σ) (s : σ) : Reply K V :=
  match (t.forEach (showPair f)).run (s, []) with
  | .ok (_, _, shown) => .pairs shown.reverse
  | .error why => .aborted why

/--
An operation that a view of a whole table offers inside a section. Callbacks have states of type
`σ`.
-/
inductive ViewOp (K V : Type) (σ : Type := Nat)
  | size
  | isEmpty
  | get (k : K)
  | contains (k : K)
  | insert (k : K) (v : V)
  | remove (k : K)
  | clear
  | iterate
  /-- Shows the pairs to a callback, which aborts where it has no state to go on with. -/
  | forEach (f : OnCall K V (σ → K → V → Option σ)) (s : σ)
  | part (op : PartOp K V σ)
  /-- Changes the values one after the other. -/
  | updateAll (f : OnCall K V (V → V))
  /-- Changes the value of a key. -/
  | update (k : K) (f : OnCall K V (V → V))
  /-- A default that is `none` aborts; the value found or stored is changed if a change is given. -/
  | findOrStore (k : K) (default : Option V) (change : OnCall K V (Option (V → V)))
  | retainBy (f : OnCall K V (Callback σ K V)) (s : σ)
  | cursor (ops : List (CursorOp K V σ))

namespace ViewOp

variable {K V σ : Type}

/-- Changes all values by an amount. -/
def modifyAll (amount : V) : ViewOp K V := updateAll fun v => Bump.bump v amount

/-- Changes the value of a key by an amount. -/
def modify (k : K) (amount : V) : ViewOp K V := update k fun v => Bump.bump v amount

/-- Finds the value of a key, or stores one. -/
def getOrInsert (k : K) (v : V) : ViewOp K V := findOrStore k (some v) none

/-- Keeps the pairs that a probe accepts. -/
def retain (p : Probe K V) : ViewOp K V := retainBy p.keeping 0

variable [BEq K] [BEq V] [Bump V]

/-- The operation on a table that may be changed. -/
def onTable : ViewOp K V σ → Table K V → Reply K V × Table K V
  | size, t => (.count t.size, t)
  | isEmpty, t => (.flag t.isEmpty, t)
  | get k, t => (.value? (t.get? k), t)
  | contains k, t => (.flag (t.contains k), t)
  | insert k v, t =>
    let (old, t) := t.insert k v
    (.value? old, t)
  | remove k, t =>
    let (v, t) := t.remove k
    (.value? v, t)
  | clear, t => (.flag true, t.clear)
  | iterate, t => (.pairs t.toList, t)
  | forEach f s, t => (t.showAll f s, t)
  | part op, t => op.answer .exclusive t
  | updateAll f, t =>
    let t := t.mapValues f
    (.pairs t.toList, t)
  | update k f, t =>
    let (v, t) := t.modify k f
    (.value? v, t)
  | findOrStore k default change, t =>
    match Edit.obtainWith t k default change with
    | (.obtained v _, t) => (.value v, t)
    | (reply, t) => (reply, t)
  | retainBy f s, t =>
    let (walked, t) := t.retain f s
    (.ofWalk (.ok walked), t)
  | cursor ops, t => CursorOp.run ops t

/-- The operation on a table that must not be changed. -/
def onShared (t : Table K V) : ViewOp K V σ → Reply K V
  | size => .count t.size
  | isEmpty => .flag t.isEmpty
  | get k => .value? (t.get? k)
  | contains k => .flag (t.contains k)
  | iterate => .pairs t.toList
  | forEach f s => t.showAll f s
  | part op => (op.answer .shared t).1
  | insert .. | remove .. | clear | updateAll .. | update .. | findOrStore .. | retainBy ..
  | cursor .. => .refused .unsupportedMutation

/-- The operation through a view with the given access. -/
def answer (access : Access) (op : ViewOp K V σ) (t : Table K V) : Reply K V × Table K V :=
  match access with
  | .shared => (op.onShared t, t)
  | .exclusive => op.onTable t

/-- The journal of an operation through a view with the given access. -/
def events (access : Access) (t : Table K V) (op : ViewOp K V σ) : List Event :=
  match access, op with
  | .exclusive, insert k v => t.insertEvents k v
  | .exclusive, findOrStore k default _ => t.getOrInsertEvents k default
  | _, _ => []

end ViewOp

/-- What a section does, one after the other. -/
inductive SectionOp (K V : Type) (σ : Type := Nat)
  | view (op : ViewOp K V σ)
  | isLive
  /-- Detaches the entry of a key and keeps it under a name. -/
  | detach (k : K) (name : String)
  | entryKey (name : String)
  | entryIsLive (name : String)
  | entryValue (name : String)
  | entrySet (name : String) (v : V)
  | abort
  /-- Opens a section of another table. -/
  | nested (table : String) (access : Access) (ops : List (SectionOp K V σ))

/-- A section that is running: its scope, the table it holds, and how. -/
structure OpenSection where
  scope : Nat
  table : String
  access : Access

namespace Session

variable {K V σ : Type} [BEq K] [BEq V] [Bump V]

def shared? (s : Session K V) (name : String) : Option (Table K V) :=
  match s.tables.find? name with
  | some ⟨true, t⟩ => some t
  | _ => none

def plain? (s : Session K V) (name : String) : Option (Table K V) :=
  match s.tables.find? name with
  | some ⟨false, t⟩ => some t
  | _ => none

def keep (s : Session K V) (name : String) (isShared : Bool) (t : Table K V) : Session K V :=
  { s with tables := s.tables.set name ⟨isShared, t⟩ }

def release (s : Session K V) (name : String) : Session K V :=
  { s with tables := s.tables.erase name }

def record (s : Session K V) (events : List Event) : Session K V :=
  { s with journal := s.journal ++ events }

/-- The key of an entry, wherever it is asked for. -/
def entryKey (s : Session K V) (name : String) : Reply K V :=
  match s.entries.find? name with
  | none => .unknown
  | some e => .ofExcept .key (e.key? s.scopes)

/-- Whether an entry's scope is live, wherever it is asked for. -/
def entryIsLive (s : Session K V) (name : String) : Reply K V :=
  match s.entries.find? name with
  | none => .unknown
  | some e => .flag (s.scopes.isLive e.scope)

/-- What a view does for a section: nothing once the scope has ended. -/
def viewOp (s : Session K V) (sec : OpenSection) (op : ViewOp K V σ) : Reply K V × Session K V :=
  match s.shared? sec.table with
  | none => (.unknown, s)
  | some t =>
    match s.scopes.check sec.scope with
    | .error e => (.refused e, s)
    | .ok _ =>
      let s := (s.record (op.events sec.access t)).release sec.table
      let (reply, t) := op.answer sec.access t
      (reply, s.keep sec.table true t)

/-- Detaches an entry in a section; says whether the key was there. -/
def detach (s : Session K V) (sec : OpenSection) (k : K) (name : String) :
    Reply K V × Session K V :=
  match s.shared? sec.table with
  | none => (.unknown, s)
  | some t =>
    match s.scopes.check sec.scope with
    | .error e => (.refused e, s)
    | .ok _ =>
      match ScopedEntry.detach t k sec.scope with
      | none => (.flag false, s)
      | some e => (.flag true, { s with entries := s.entries.set name e })

/-- The value of an entry through the view of a section. -/
def entryValue (s : Session K V) (sec : OpenSection) (name : String) : Reply K V :=
  match s.entries.find? name, s.shared? sec.table with
  | some e, some t => .ofExcept .value (e.value s.scopes sec.scope t)
  | _, _ => .unknown

/-- Replaces the value of an entry through the view of a writing section. -/
def entrySet (s : Session K V) (sec : OpenSection) (name : String) (v : V) :
    Reply K V × Session K V :=
  match s.entries.find? name, s.shared? sec.table, sec.access with
  | some e, some t, .exclusive =>
    let s := s.release sec.table
    let (old, t) := e.setValue s.scopes sec.scope t v
    (.ofExcept .value old, s.keep sec.table true t)
  | _, _, _ => (.unknown, s)

mutual

def sectionOp (sec : OpenSection) (s : Session K V) : SectionOp K V σ → Reply K V × Session K V
  | .view op => s.viewOp sec op
  | .isLive => (.flag (s.scopes.isLive sec.scope), s)
  | .detach k name => s.detach sec k name
  | .entryKey name => (s.entryKey name, s)
  | .entryIsLive name => (s.entryIsLive name, s)
  | .entryValue name => (s.entryValue sec name, s)
  | .entrySet name v => s.entrySet sec name v
  | .abort => (.aborted .inSection, s)
  | .nested table access ops =>
    let (scope, scopes) := s.scopes.enter
    let (replies, s) := sectionOps ⟨scope, table, access⟩ { s with scopes := scopes } ops
    (.list replies, { s with scopes := s.scopes.leave scope })

/-- Does things in a section until one breaks it off, whose reply is the last. -/
def sectionOps (sec : OpenSection) (s : Session K V) :
    List (SectionOp K V σ) → List (Reply K V) × Session K V
  | [] => ([], s)
  | op :: ops =>
    let (reply, s) := sectionOp sec s op
    match reply.abort? with
    | some _ => ([reply], s)
    | none =>
      let (replies, s) := sectionOps sec s ops
      (reply :: replies, s)

end

/-- Runs a section of a shared table. Its scope ends with it, however it ends. -/
def runSection (s : Session K V) (table : String) (access : Access)
    (ops : List (SectionOp K V σ)) : Reply K V × Session K V :=
  let (scope, scopes) := s.scopes.enter
  let (replies, s) := sectionOps ⟨scope, table, access⟩ { s with scopes := scopes } ops
  (.list replies, { s with scopes := s.scopes.leave scope })

end Session

end FlatTable

import FlatTable.Session.Query
import FlatTable.Session.Section

/-!
# Steps of a session

The requests a session answers: making tables, reading and changing them, using handles, and sharing
tables between sections.
-/

namespace FlatTable

inductive Maker (K V : Type)
  | ofConfig (config : Config) (hasher : Option Hasher)
  | collect (pairs : List (K × V))
  | ofPersisted (declared : Nat) (lf : LoadFactor) (pairs : List (K × V))
  | readFrom (input : List UInt8)
  | decode (input : List UInt8)
  | ofText (text : String)

/-- An operation on a shared table without a section. -/
inductive SharedOp (K V : Type)
  | size
  | isEmpty
  | get (k : K)
  | contains (k : K)
  | insert (k : K) (v : V)
  | remove (k : K)
  | parallel

inductive Step (K V : Type) (σ : Type := Nat)
  | make (table : String) (maker : Maker K V)
  | clone (table copy : String)
  | query (table : String) (q : Query K V)
  | edit (table : String) (e : Edit K V)
  /-- Gives up the table and yields its pairs. -/
  | drain (table : String) (take : Option Nat)
  | compare (table other : String)
  | takeHandle (table : String) (k : K) (handle : String)
  /-- Keeps a handle of every pair, under the given word and its number. -/
  | takeHandles (table : String) (stem : String)
  | handleKey (handle : String)
  | handleValue (table handle : String)
  | handleSet (table handle : String) (v : V)
  | handleModify (table handle : String) (amount : V)
  | handleIsLive (table handle : String)
  | handleEquals (handle other : String)
  | share (table : String)
  | unshare (table : String)
  | shared (table : String) (op : SharedOp K V)
  | runSection (table : String) (access : Access) (ops : List (SectionOp K V σ))
  | entryKey (entry : String)
  | entryIsLive (entry : String)

variable {K V σ : Type} [KeyKind K] [ValueKind V]

namespace Maker

/-- The hash function of a table: that of the named hasher, or the given one. -/
def hashFunction (standard : Hasher) : Maker K V → K → UInt64
  | ofConfig _ (some h) => h.on
  | _ => standard.on

/-- Makes the table, or says why it cannot be made. -/
def run (standard : Hasher) (id : Nat) (maker : Maker K V) : Except (Reply K V) (Table K V) :=
  let hash := maker.hashFunction standard
  match maker with
  | ofConfig config _ => (Table.create hash config id).mapError .refused
  | collect pairs => .ok ((Table.build hash .standard id).extend pairs)
  | ofPersisted declared lf pairs =>
    (Table.ofPersisted hash declared lf pairs id).mapError .refused
  | readFrom input => (Table.readFrom hash input id).mapError fun
    | .codec e => .codecFailed e
    | .table e => .refused e
  | decode input => (Table.decode hash input id).mapError .codecFailed
  | ofText text => (Table.ofText hash text id).mapError .jsonFailed

def events (standard : Hasher) (maker : Maker K V) : List Event :=
  let hash := maker.hashFunction standard
  match maker with
  | ofConfig _ _ => []
  | collect pairs => (Table.build hash .standard 0).extendEvents pairs
  | ofPersisted declared lf pairs => readyForEvents hash declared lf pairs
  | readFrom input => readFromEvents (V := V) hash input
  | decode input => decodeEvents (V := V) hash input
  | ofText text => ofTextEvents (V := V) hash text

end Maker

def SharedOp.answer : SharedOp K V → Table K V → Reply K V × Table K V
  | size, t => (.count t.size, t)
  | isEmpty, t => (.flag t.isEmpty, t)
  | get k, t => (.value? (t.get? k), t)
  | contains k, t => (.flag (t.contains k), t)
  | insert k v, t => (Edit.insert k v).answer t
  | remove k, t => (Edit.remove k).answer t
  | parallel, t => (Query.parallelReply t, t)

def SharedOp.events (t : Table K V) : SharedOp K V → List Event
  | insert k v => t.insertEvents k v
  | _ => []

namespace Session

def editPlain (s : Session K V) (table : String) (e : Edit K V) : Reply K V × Session K V :=
  match s.plain? table with
  | none => (.unknown, s)
  | some t =>
    let s := (s.record (e.events t)).release table
    let (reply, t) := e.answer t
    (reply, s.keep table false t)

def editByHandle (s : Session K V) (table handle : String)
    (change : EntryHandle K → Table K V → Reply K V × Table K V) : Reply K V × Session K V :=
  match s.handles.find? handle, s.plain? table with
  | some h, some t =>
    let s := s.release table
    let (reply, t) := change h t
    (reply, s.keep table false t)
  | _, _ => (.unknown, s)

/-- Keeps handles under a word and their numbers. -/
def keepHandles (s : Session K V) (stem : String) (hs : List (EntryHandle K)) : Session K V :=
  (hs.foldl (fun (acc : Nat × Session K V) h =>
    (acc.1 + 1, { acc.2 with handles := acc.2.handles.set (stem ++ toString acc.1) h })) (0, s)).2

def step (s : Session K V) : Step K V σ → Reply K V × Session K V
  | .make table maker =>
    let s := s.record (maker.events s.hasher)
    match maker.run s.hasher s.nextId with
    | .error reply => (reply, s)
    | .ok t => (.flag true, { s.keep table false t with nextId := s.nextId + 1 })
  | .clone table copy =>
    match s.plain? table with
    | none => (.unknown, s)
    | some t =>
      (.flag true, { s.keep copy false (t.clone s.nextId) with nextId := s.nextId + 1 })
  | .query table q =>
    match s.plain? table with
    | none => (.unknown, s)
    | some t => (q.answer s.hasher t, s)
  | .edit table e => s.editPlain table e
  | .drain table take =>
    match s.plain? table with
    | none => (.unknown, s)
    | some t => ((IterKind.pairs.run take none t).1, s.release table)
  | .compare table other =>
    match s.plain? table, s.plain? other with
    | some t, some u => (.flag (t.equals u), s)
    | _, _ => (.unknown, s)
  | .takeHandle table k handle =>
    match s.plain? table with
    | none => (.unknown, s)
    | some t => match t.handle? k with
      | none => (.flag false, s)
      | some h => (.flag true, { s with handles := s.handles.set handle h })
  | .takeHandles table stem =>
    match s.plain? table with
    | none => (.unknown, s)
    | some t => (.keys (t.handles.map (·.key)), s.keepHandles stem t.handles)
  | .handleKey handle =>
    match s.handles.find? handle with
    | none => (.unknown, s)
    | some h => (.key h.key, s)
  | .handleValue table handle =>
    match s.handles.find? handle, s.plain? table with
    | some h, some t => (.ofExcept .value (h.value t), s)
    | _, _ => (.unknown, s)
  | .handleSet table handle v =>
    s.editByHandle table handle fun h t =>
      let (old, t) := h.setValue t v
      (.ofExcept .value old, t)
  | .handleModify table handle amount =>
    s.editByHandle table handle fun h t =>
      let (r, t) := h.modify t fun v => Bump.bump v amount
      (.ofExcept (fun p => .value p.2) r, t)
  | .handleIsLive table handle =>
    match s.handles.find? handle, s.plain? table with
    | some h, some t => (.flag (h.isLive t), s)
    | _, _ => (.unknown, s)
  | .handleEquals handle other =>
    match s.handles.find? handle, s.handles.find? other with
    | some h, some g => (.flag (h == g), s)
    | _, _ => (.unknown, s)
  | .share table =>
    match s.plain? table with
    | none => (.unknown, s)
    | some t => (.flag true, s.keep table true t)
  | .unshare table =>
    match s.shared? table with
    | none => (.unknown, s)
    | some t => (.flag true, s.keep table false t)
  | .shared table op =>
    match s.shared? table with
    | none => (.unknown, s)
    | some t =>
      let s := (s.record (op.events t)).release table
      let (reply, t) := op.answer t
      (reply, s.keep table true t)
  | .runSection table access ops =>
    match s.shared? table with
    | none => (.unknown, s)
    | some _ => s.runSection table access ops
  | .entryKey entry => (s.entryKey entry, s)
  | .entryIsLive entry => (s.entryIsLive entry, s)

def run (s : Session K V) : List (Step K V σ) → List (Reply K V) × Session K V
  | [] => ([], s)
  | r :: rs =>
    let (reply, s) := s.step r
    let (replies, s) := s.run rs
    (reply :: replies, s)

end Session

end FlatTable

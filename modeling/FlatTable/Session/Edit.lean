import FlatTable.Session.ViewOp
import FlatTable.Table.Iter
import FlatTable.Table.Journal

/-!
# Requests that may change a table
-/

namespace FlatTable

/-- What an iterator yields, and whether it lets values be changed. -/
inductive IterKind
  | pairs
  /-- As `pairs`, and the iterator is copied at the end. -/
  | copiedPairs
  | mutablePairs
  | keys
  | values
  | mutableValues

/-- A request that may change the table. -/
inductive Edit (K V : Type)
  | insert (k : K) (v : V)
  | extend (pairs : List (K × V))
  | modify (k : K) (amount : V)
  /-- A default that is `none` aborts; the value found or stored is then changed by an amount. -/
  | getOrInsert (k : K) (default : Option V) (amount : Option V)
  | remove (k : K)
  | removeEntry (k : K)
  | clear
  | retain (p : Probe K V)
  | iterate (kind : IterKind) (take : Option Nat) (amount : Option V)
  | cursor (ops : List (CursorOp K V))
  | part (access : Access) (op : PartOp K V)

namespace IterKind

variable {K V : Type}

/-- What is shown of a pair. -/
def item : IterKind → K × V → Reply K V
  | keys, p => .key p.1
  | values, p | mutableValues, p => .value p.2
  | pairs, p | copiedPairs, p | mutablePairs, p => .pair p.1 p.2

def isMutable : IterKind → Bool
  | mutablePairs | mutableValues => true
  | _ => false

/-- One call of an iterator, which changes the value it yields if it can. -/
def call [Bump V] (kind : IterKind) (amount : Option V) : Iter K V → Option (K × V) × Iter K V :=
  if kind.isMutable then fun it => it.nextModify fun v => amount.elim v (Bump.bump v)
  else Iter.nextPart id

/-- Calls an iterator up to `take` times, once past the end at most. -/
def run [Bump V] (kind : IterKind) (take : Option Nat) (amount : Option V) (t : Table K V) :
    Reply K V × Table K V :=
  let calls := match take with
    | none => t.size + 1
    | some n => min n (t.size + 1)
  let (trace, it) := Iter.trace (kind.call amount) calls t.iter
  let items := trace.items.map fun
    | none => Reply.nothing
    | some p => kind.item p
  let copy := match kind with
    | copiedPairs => some (it.toList.map Prod.fst)
    | _ => none
  (.iterated items trace.lengths copy, it.table)

end IterKind

namespace Edit

variable {K V : Type} [BEq K] [BEq V] [Bump V]

/-- Finds or stores a value, then changes it where it stands if a change is given. -/
def obtainWith {K V : Type} [BEq K] (t : Table K V) (k : K) (default : Option V)
    (change : Option (V → V)) : Reply K V × Table K V :=
  let finish (t : Table K V) (loc : Location) (called : Bool) : Reply K V × Table K V :=
    let t := change.elim t (t.modifyValueAt loc)
    match t.bucketAt? loc with
    | none => (.unknown, t)
    | some b => (.obtained b.value called, t)
  match t.getOrInsert k default with
  | (.found loc, t) => finish t loc false
  | (.inserted loc, t) => finish t loc true
  | (.aborted, t) => (.aborted .callback, t)

def answer : Edit K V → Table K V → Reply K V × Table K V
  | insert k v, t =>
    let (old, t) := t.insert k v
    (.value? old, t)
  | extend pairs, t => (.flag true, t.extend pairs)
  | modify k amount, t =>
    let (v, t) := t.modify k fun v => Bump.bump v amount
    (.value? v, t)
  | getOrInsert k default amount, t =>
    obtainWith t k default (amount.map fun x v => Bump.bump v x)
  | remove k, t =>
    let (v, t) := t.remove k
    (.value? v, t)
  | removeEntry k, t =>
    let (entry, t) := t.removeEntry k
    (.pair? entry, t)
  | clear, t => (.flag true, t.clear)
  | retain p, t =>
    let (walked, t) := t.retain p.keeping 0
    (if walked.aborted then .aborted .callback else .calls walked.state, t)
  | iterate kind take amount, t => kind.run take amount t
  | cursor ops, t => CursorOp.run ops t
  | part access op, t => op.answer access t

def events (t : Table K V) : Edit K V → List Event
  | insert k v => t.insertEvents k v
  | extend pairs => t.extendEvents pairs
  | getOrInsert k default _ => t.getOrInsertEvents k default
  | _ => []

end Edit

end FlatTable

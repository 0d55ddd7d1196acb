import FlatTable.Session.CursorOp
import FlatTable.Traversal.Containers

/-!
# Requests to views

The requests that the views of keys, values and entries answer. Each is an operation on a table that
is shared or held exclusively. A filter is given by a judge and its state, which is of type `σ`.
-/

namespace FlatTable

open Traversal

inductive KeySetOp (K V : Type) (σ : Type := Nat)
  | size
  | isEmpty
  | iterate
  | contains (k : K)
  | remove (k : K)
  | retainBy (judge : OnCall K V (σ → K → σ × Verdict)) (s : σ)
  | clear
  | strategy
  | forEach
  | indexed
  | collect
  | select (p : Probe K V)
  | reject (p : Probe K V)
  | any (p : Probe K V)
  | all (p : Probe K V)
  | count (p : Probe K V)
  | detect (p : Probe K V)
  | inject

/-- The name of a way to offer elements. -/
def Traversal.Strategy.name {α : Type} : Strategy α → String
  | contiguous _ => "contiguous"
  | indexed _ _ => "indexed"
  | cursor _ => "cursor"

variable {K V σ : Type}

/-- The reply of a traversal whose condition counts its calls and may break off. -/
def Reply.ofCalls {α : Type} (reply : α → Reply K V) (run : Probe.Calls α) : Reply K V :=
  match run.run 0 with
  | .ok (a, _) => reply a
  | .error why => .aborted why

namespace KeySetOp

/-- Keeps the keys that a probe accepts. -/
def retain (p : Probe K V) : KeySetOp K V := retainBy (fun i k => p.judge i (some k) none) 0

variable [BEq K] [BEq V]

/-- Answers a request that leaves the table alone. -/
def read (keys : KeySet K V) : KeySetOp K V σ → Reply K V
  | size => .count keys.table.size
  | isEmpty => .flag keys.table.isEmpty
  | iterate => .keys keys.table.keys
  | contains k => .flag (keys.table.contains k)
  | strategy => .text (Enumerable.strategy keys).name
  | forEach => .ofCalls (fun ks : Array (Reply K V) => .list ks.toList)
      (do
        let visit (k : K) : StateT (Array (Reply K V)) Probe.Calls Unit := modify (·.push (.key k))
        return ((← (Traversal.forEach keys visit).run #[]).2))
  | indexed => .ofCalls (fun ks : Array (Reply K V) => .list ks.toList)
      (do
        let visit (k : K) (i : Nat) : StateT (Array (Reply K V)) Probe.Calls Unit :=
          modify (·.push (.list [.count i, .key k]))
        return ((← (Traversal.forEachWithIndex keys visit).run #[]).2))
  | collect => .ofCalls (fun ks : Array K => .keys ks.toList) (Traversal.collect keys pure)
  | select p => .ofCalls (fun ks : Array K => .keys ks.toList) (Traversal.select keys p.onKey)
  | reject p => .ofCalls (fun ks : Array K => .keys ks.toList) (Traversal.reject keys p.onKey)
  | any p => .ofCalls .flag (anySatisfy keys p.onKey)
  | all p => .ofCalls .flag (allSatisfy keys p.onKey)
  | count p => .ofCalls .count (Traversal.count keys p.onKey)
  | detect p => .ofCalls .detected (Traversal.detect keys p.onKey)
  | inject => .ofCalls .count (injectInto 0 keys fun n _ => pure (n + 1))
  | remove _ | retainBy .. | clear => .unknown

def answer [Bump V] (access : Access) (op : KeySetOp K V σ) (t : Table K V) : Reply K V × Table K V :=
  match op with
  | remove k =>
    let (r, t) := KeySet.remove ⟨⟨access, t⟩⟩ k
    (.ofExcept .flag r, t)
  | retainBy judge s =>
    let (r, t) := KeySet.retain ⟨⟨access, t⟩⟩ (.judging fun s p => judge s p.1) s
    (.ofWalk r, t)
  | clear =>
    let (r, t) := KeySet.clear ⟨⟨access, t⟩⟩
    (.ofExcept (fun _ => .flag true) r, t)
  | op => (op.read ⟨⟨access, t⟩⟩, t)

end KeySetOp

inductive ValuesOp (K V : Type) (σ : Type := Nat)
  | size
  | isEmpty
  | iterate
  | contains (v : V)
  | remove (v : V)
  | removeAll (vs : List V)
  | retainBy (judge : OnCall K V (σ → V → σ × Verdict)) (s : σ)

/-- Keeps the values that a probe accepts. -/
def ValuesOp.retain (p : Probe K V) : ValuesOp K V :=
  retainBy (fun i v => p.judge i none (some v)) 0

def ValuesOp.answer [BEq K] [BEq V] [Bump V] (access : Access) (op : ValuesOp K V σ)
    (t : Table K V) : Reply K V × Table K V :=
  match op with
  | size => (.count t.size, t)
  | isEmpty => (.flag t.isEmpty, t)
  | iterate => (.values t.values, t)
  | contains v => (.flag (t.containsValue v), t)
  | remove v =>
    let (r, t) := ValuesView.remove ⟨⟨access, t⟩⟩ v
    (.ofExcept .flag r, t)
  | removeAll vs =>
    let (r, t) := ValuesView.removeAll ⟨⟨access, t⟩⟩ vs
    (.ofExcept .count r, t)
  | retainBy judge s =>
    let (r, t) := ValuesView.retain ⟨⟨access, t⟩⟩ (.judging fun s p => judge s p.2) s
    (.ofWalk r, t)

inductive EntriesOp (K V : Type)
  | size
  | isEmpty
  | iterate
  | contains (k : K) (v : V)
  | remove (k : K) (v : V)

def EntriesOp.answer [BEq K] [BEq V] (access : Access) (op : EntriesOp K V) (t : Table K V) :
    Reply K V × Table K V :=
  match op with
  | size => (.count t.size, t)
  | isEmpty => (.flag t.isEmpty, t)
  | iterate => (.pairs t.toList, t)
  | contains k v => (.flag (EntrySet.contains ⟨⟨access, t⟩⟩ k v), t)
  | remove k v =>
    let (r, t) := EntrySet.remove ⟨⟨access, t⟩⟩ k v
    (.ofExcept .flag r, t)

/-- Requests to one of the three partial views. -/
inductive PartOp (K V : Type) (σ : Type := Nat)
  | keys (ops : List (KeySetOp K V σ))
  | values (ops : List (ValuesOp K V σ))
  | entries (ops : List (EntriesOp K V))

def PartOp.answer [BEq K] [BEq V] [Bump V] (access : Access) (op : PartOp K V σ)
    (t : Table K V) : Reply K V × Table K V :=
  match op with
  | keys ops => Reply.sequence (KeySetOp.answer access) ops t
  | values ops => Reply.sequence (ValuesOp.answer access) ops t
  | entries ops => Reply.sequence (EntriesOp.answer access) ops t

end FlatTable

import FlatTable.Table.Basic

/-!
# Iterators

An iterator yields the pairs in traversal order and knows how many it will still yield. It goes over
the slots and, inside a slot, over the cells of its chain. A bucket comes with its location, through
which a caller may change the value in the table; the buckets not come to yet stay as they are.
-/

namespace FlatTable

universe u v w

variable {K : Type u} {V : Type v}

/-- The cells of the chain in slot `i` with their locations. -/
def Chain.locatedCells (i : Nat) (c : Chain K V) : List (Option (Bucket K V) × Location) :=
  c.cells.toList.zipIdx.map fun (cell, j) => (cell, .chained i j)

/-- A walk over a table that removes nothing. -/
structure Iter (K : Type u) (V : Type v) where
  table : Table K V
  /-- The slots not come to yet, with their indices. -/
  slots : List (Slot K V × Nat)
  /-- What is left of the cells of the chain gone into last. -/
  cells : List (Option (Bucket K V) × Location)
  /-- The number of pairs still to yield. -/
  remaining : Nat

/-- An iterator before the first pair. -/
def Table.iter (t : Table K V) : Iter K V := ⟨t, t.slots.toList.zipIdx, [], t.size⟩

namespace Iter

/--
Looks for a bucket in the cells of the chain begun and then in the slots. A vacant cell sends the
walk on to the next slot; the cells behind it stay until another chain takes their place.
-/
def advance : List (Slot K V × Nat) → List (Option (Bucket K V) × Location) →
    Option (Location × Bucket K V) × List (Slot K V × Nat) × List (Option (Bucket K V) × Location)
  | slots, (some b, loc) :: cells => (some (loc, b), slots, cells)
  | [], cells => (none, [], cells.tail)
  | (.empty, _) :: slots, cells => advance slots cells.tail
  | (.pair b, i) :: slots, cells => (some (.primary i, b), slots, cells.tail)
  | (.chained c, i) :: slots, _ => advance slots (c.locatedCells i)

/-- Yields the next bucket and where it stands. -/
def next (it : Iter K V) : Option (Location × Bucket K V) × Iter K V :=
  if it.remaining = 0 then (none, it)
  else match advance it.slots it.cells with
    | (none, slots, cells) => (none, { it with slots := slots, cells := cells })
    | (some found, slots, cells) =>
      (some found, { it with slots := slots, cells := cells, remaining := it.remaining - 1 })

/-- Yields what a caller takes of the next pair. -/
def nextPart {α : Type w} (part : K × V → α) (it : Iter K V) : Option α × Iter K V :=
  let (found, it) := it.next
  (found.map fun (_, b) => part b.toPair, it)

/-- Yields the next pair with its value changed in the table. -/
def nextModify (it : Iter K V) (f : V → V) : Option (K × V) × Iter K V :=
  match it.next with
  | (none, it) => (none, it)
  | (some (loc, b), it) =>
    (some (b.key, f b.value), { it with table := it.table.modifyValueAt loc f })

/-- What at most `fuel` calls yield before the end. -/
def rest : (fuel : Nat) → Iter K V → List (K × V)
  | 0, _ => []
  | fuel + 1, it =>
    match it.next with
    | (none, _) => []
    | (some (_, b), it) => b.toPair :: rest fuel it

/-- All that is still to come. -/
def toList (it : Iter K V) : List (K × V) := rest it.remaining it

/-- Shows the pairs of the next `fuel` calls to a callback, numbered from `i` on. -/
def visit {m : Type w → Type w} [Monad m] (f : K → V → Nat → m PUnit) :
    (fuel i : Nat) → Iter K V → m PUnit
  | 0, _, _ => pure ⟨⟩
  | fuel + 1, i, it =>
    match it.next with
    | (none, _) => pure ⟨⟩
    | (some (_, b), it) => do
      f b.key b.value i
      visit f fuel (i + 1) it

/-- The answers of some calls, and the number of pairs to come before the first and after each. -/
structure Trace (K : Type u) (V : Type v) where
  items : List (Option (K × V))
  lengths : List Nat

def trace (call : Iter K V → Option (K × V) × Iter K V) :
    (calls : Nat) → Iter K V → Trace K V × Iter K V
  | 0, it => (⟨[], [it.remaining]⟩, it)
  | calls + 1, it =>
    let before := it.remaining
    let (item, it) := call it
    let (t, it) := trace call calls it
    (⟨item :: t.items, before :: t.lengths⟩, it)

end Iter

namespace Table

def mapValues (t : Table K V) (f : V → V) : Table K V :=
  let n := t.size
  (Iter.trace (·.nextModify f) n t.iter).2.table

variable {m : Type w → Type w} [Monad m]

def forEach (t : Table K V) (f : K → V → m PUnit) : m PUnit :=
  t.iter.visit (fun k v _ => f k v) t.size 0

/-- Shows every pair to a callback with its place in the traversal. -/
def forEachWithIndex (t : Table K V) (f : K → V → Nat → m PUnit) : m PUnit :=
  t.iter.visit f t.size 0

end Table

end FlatTable

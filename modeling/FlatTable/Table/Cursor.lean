import FlatTable.Table.Basic

/-!
# Cursors

A cursor visits the pairs of a table in traversal order and may remove the pair it returned last.
Removal moves the last bucket of a chain into the freed cell, or gives the chain up; the cursor then
turns back to where an unvisited bucket came to stand, so that every pair is still met once.
-/

namespace FlatTable

universe u v

/--
The first bucket at or after a place in the slot array, with the place behind it. A place is a slot
and a cell of its chain.
-/
def seek {K : Type u} {V : Type v} (slots : Array (Slot K V)) (position cell : Nat) :
    Option (Location × Nat × Nat) :=
  if h : position < slots.size then
    match slots[position] with
    | .empty => seek slots (position + 1) 0
    | .pair _ => some (.primary position, position + 1, 0)
    | .chained c =>
      if cell < c.length then some (.chained position cell, position, cell + 1)
      else seek slots (position + 1) 0
  else none
termination_by slots.size - position

/-- A walk over a table that may remove pairs. -/
structure Cursor (K : Type u) (V : Type v) where
  table : Table K V
  /-- The number of pairs returned and not removed. -/
  visited : Nat
  /-- The slot looked at next. -/
  position : Nat
  /-- The cell looked at next, in a slot with a chain. -/
  cell : Nat
  /-- The pair returned last, unless it was removed. -/
  last : Option Location

namespace Cursor

variable {K : Type u} {V : Type v}

/-- A cursor before the first pair. -/
def start (t : Table K V) : Cursor K V := ⟨t, 0, 0, 0, none⟩

/-- Whether there are pairs to visit. -/
def hasNext (c : Cursor K V) : Bool := decide (c.visited < c.table.size)

/-- The number of pairs still to visit. -/
def remaining (c : Cursor K V) : Nat := c.table.size - c.visited

def next (c : Cursor K V) : Except TableError (K × V) × Cursor K V :=
  if !c.hasNext then (.error .exhausted, c)
  else match seek c.table.slots c.position c.cell with
    | none => (.error .exhausted, c)
    | some (loc, position, cell) => match c.table.bucketAt? loc with
      | none => (.error .exhausted, c)
      | some b =>
        (.ok b.toPair, { c with
          visited := c.visited + 1, position := position, cell := cell, last := some loc })

def modifyLast (c : Cursor K V) (f : V → V) : Cursor K V :=
  match c.last with
  | none => c
  | some loc => { c with table := c.table.modifyValueAt loc f }

/--
Where to go on after the bucket at a location was removed. A chain's last bucket now stands in the
freed cell and is unvisited. The survivor of a chain of two was in the second cell, so it is
unvisited only if the first was freed.
-/
def resume (slots : Array (Slot K V)) : Location → (position cell : Nat) → Nat × Nat
  | .primary _, position, cell => (position, cell)
  | .chained s i, _, _ =>
    match slots[s]? with
    | some (.chained _) => (s, i)
    | some (.pair _) => if i = 0 then (s, 0) else (s + 1, 0)
    | _ => (s + 1, 0)

/-- Removes the pair returned last, which a cursor can do once. -/
def remove (c : Cursor K V) : Except TableError (K × V) × Cursor K V :=
  match c with
  | ⟨t, visited, position, cell, none⟩ => (.error .invalidCursorState, ⟨t, visited, position, cell, none⟩)
  | ⟨t, visited, position, cell, some loc⟩ =>
    match t.removeAt? loc with
    | (none, t) => (.error .invalidCursorState, ⟨t, visited, position, cell, none⟩)
    | (some b, t) =>
      let (position, cell) := resume t.slots loc position cell
      (.ok b.toPair, ⟨t, visited - 1, position, cell, none⟩)

end Cursor

end FlatTable

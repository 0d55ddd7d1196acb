import FlatTable.Table.Retain

/-!
# Views of keys, values and entries

A view reads its table, and changes it if it was taken for that: a view of a shared table refuses
every change. Each change gives its answer and the table afterwards.
-/

namespace FlatTable

universe u v w

/-- How a table is held. -/
inductive Access
  | shared
  | exclusive
deriving DecidableEq

/-- A table and how it is held. -/
structure View (K : Type u) (V : Type v) where
  access : Access
  table : Table K V

variable {K : Type u} {V : Type v} {α : Type w} {σ : Type w}

/-- A change through a view, refused where the table is shared. -/
def View.edit (view : View K V) (f : Table K V → α × Table K V) :
    Except TableError α × Table K V :=
  match view with
  | ⟨.shared, t⟩ => (.error .unsupportedMutation, t)
  | ⟨.exclusive, t⟩ =>
    let (a, t) := f t
    (.ok a, t)

structure KeySet (K : Type u) (V : Type v) extends View K V

namespace KeySet

/-- Removes a key; says whether it was there. -/
def remove [BEq K] (s : KeySet K V) (k : K) : Except TableError Bool × Table K V :=
  s.edit fun t =>
    let (entry, t) := t.removeEntry k
    (entry.isSome, t)

def retain (s : KeySet K V) (f : Callback σ K V) (state : σ) :
    Except TableError (Walked σ) × Table K V :=
  s.edit fun t => t.retain f state

def clear (s : KeySet K V) : Except TableError Unit × Table K V := s.edit fun t => ((), t.clear)

end KeySet

structure ValuesView (K : Type u) (V : Type v) extends View K V

namespace ValuesView

/-- Removes the first of the next `fuel` pairs that has an equal value. -/
def removeFrom [BEq V] (v : V) : (fuel : Nat) → Cursor K V → Bool × Table K V
  | 0, c => (false, c.table)
  | fuel + 1, c =>
    match c.next with
    | (.error _, c) => (false, c.table)
    | (.ok (_, x), c) => if x == v then (true, c.remove.2.table) else removeFrom v fuel c

/-- Removes the first pair with an equal value; says whether there was one. -/
def remove [BEq V] (s : ValuesView K V) (v : V) : Except TableError Bool × Table K V :=
  s.edit fun t =>
    let n := t.size
    removeFrom v n (.start t)

/-- Removes the pairs whose value equals one of those given; gives their number. -/
def removeAll [BEq V] (s : ValuesView K V) (vs : List V) : Except TableError Nat × Table K V :=
  s.edit fun t =>
    let before := t.size
    let t := t.filter fun _ x => !vs.any (· == x)
    (before - t.size, t)

def retain (s : ValuesView K V) (f : Callback σ K V) (state : σ) :
    Except TableError (Walked σ) × Table K V :=
  s.edit fun t => t.retain f state

end ValuesView

structure EntrySet (K : Type u) (V : Type v) extends View K V

namespace EntrySet

/-- Whether the key is present with an equal value. -/
def contains [BEq K] [BEq V] (s : EntrySet K V) (k : K) (v : V) : Bool :=
  (s.table.get? k).any (· == v)

/-- Removes the pair of the key if its value is equal; says whether it did. -/
def remove [BEq K] [BEq V] (s : EntrySet K V) (k : K) (v : V) :
    Except TableError Bool × Table K V :=
  s.edit fun t =>
    if (t.get? k).any (· == v) then
      let (entry, t) := t.removeEntry k
      (entry.isSome, t)
    else (false, t)

end EntrySet

end FlatTable

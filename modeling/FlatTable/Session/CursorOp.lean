import FlatTable.Session.Probe

/-!
# Requests to a cursor

A list of requests is answered by one cursor over a table.
-/

namespace FlatTable

/-- A request to a cursor. Callbacks have states of type `σ`. -/
inductive CursorOp (K V : Type) (σ : Type := Nat)
  | hasNext
  | remaining
  /-- Returns the next pair, with its value changed if a change is given. -/
  | advance (change : OnCall K V (Option (V → V)))
  | remove
  /-- Visits all pairs left, with a callback and its state. -/
  | sweepBy (f : OnCall K V (Callback σ K V)) (s : σ)

namespace CursorOp

variable {K V σ : Type}

/-- Returns the next pair, with its value changed by an amount if one is given. -/
def next (amount : Option V) : CursorOp K V := advance (amount.map fun x v => Bump.bump v x)

/-- Visits all pairs left, with a probe. -/
def sweep (p : Probe K V) : CursorOp K V := sweepBy p.removing 0

variable [BEq K] [BEq V] [Bump V]

def answer : CursorOp K V σ → Cursor K V → Reply K V × Cursor K V
  | hasNext, c => (.flag c.hasNext, c)
  | remaining, c => (.count c.remaining, c)
  | advance change, c =>
    match c.next with
    | (.error e, c) => (.refused e, c)
    | (.ok (k, v), c) =>
      match change with
      | none => (.pair k v, c)
      | some f => (.pair k (f v), c.modifyLast f)
  | remove, c =>
    let (r, c) := c.remove
    (.ofExcept (fun p => .pair p.1 p.2) r, c)
  | sweepBy f s, c =>
    match c.sweep f s with
    | (some swept, c) => (.swept swept, c)
    | (none, c) => (.aborted .callback, c)

/-- Answers requests with a fresh cursor. -/
def run (ops : List (CursorOp K V σ)) (t : Table K V) : Reply K V × Table K V :=
  let (reply, c) := Reply.sequence answer ops (.start t)
  (reply, c.table)

end CursorOp

end FlatTable

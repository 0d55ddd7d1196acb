import FlatTable.Sections
import FlatTable.Table.Basic

/-!
# Walking a table in sections

A section owns the slots whose key cell it covers, with their chains, so the sections of one count
can be walked in any order and together meet every pair once.
-/

namespace FlatTable.Table

universe u v

variable {K : Type u} {V : Type v}

/-- The pairs in the slots whose cells lie in a range. -/
def pairsIn (t : Table K V) (r : CellRange) : List (K × V) :=
  (bucketsOf (t.slots.extract (r.start / 2) (r.stop / 2))).map Bucket.toPair

/-- The number of sections of about the given number of cells; zero is taken as one. -/
def sectionCount (t : Table K V) (target : Nat) : Nat := max (t.cellCount / max target 1) 1

/-- The pairs of section `index` out of `count`. -/
def sectionPairs (t : Table K V) (index count : Nat) : Except TableError (List (K × V)) :=
  match sectionBounds t.cellCount index count with
  | .error e => .error e
  | .ok r => .ok (t.pairsIn r)

/-- The pairs of each of `count` sections in turn. -/
def sections (t : Table K V) (count : Nat) : List (List (K × V)) :=
  (List.range count).map fun i => t.pairsIn (sectionRange t.cellCount i count)

/-- The pairs that `workers` workers meet who take one section each, in the given order. -/
def parallelPairs (t : Table K V) (workers : Nat) (order : List Nat) : List (K × V) :=
  order.flatMap fun i => t.pairsIn (sectionRange t.cellCount i workers)

/-- The keys of each slot that holds any. -/
def layout (t : Table K V) : List (Nat × List K) :=
  ((t.sections t.capacity).mapIdx fun i pairs => (i, pairs.map Prod.fst)).filter (!·.2.isEmpty)

end FlatTable.Table

/-!
# Buckets and overflow chains

A bucket is a pair with the spread hash of its key. Buckets whose keys fall into the same slot stand
in a chain of cells, the occupied ones first; the chain gets room for two more when it is full.
-/

namespace FlatTable

universe u v

/-- A stored pair with the spread hash of its key. -/
structure Bucket (K : Type u) (V : Type v) where
  hash : UInt32
  key : K
  value : V

/-- Whether the bucket's key is the one looked for. Keys of different hashes are never compared. -/
def Bucket.isFor {K : Type u} {V : Type v} [BEq K] (b : Bucket K V) (hash : UInt32) (k : K) : Bool :=
  b.hash == hash && b.key == k

def Bucket.toPair {K : Type u} {V : Type v} (b : Bucket K V) : K × V := (b.key, b.value)

/-- The contents of the occupied cells before the first vacant one. -/
def occupiedPrefix {α : Type u} : List (Option α) → List α
  | some a :: cells => a :: occupiedPrefix cells
  | _ => []

/-- Cells for the buckets of one slot. -/
structure Chain (K : Type u) (V : Type v) where
  cells : Array (Option (Bucket K V))

namespace Chain

variable {K : Type u} {V : Type v}

/-- A chain with one bucket and room for another. -/
def ofBucket (b : Bucket K V) : Chain K V := ⟨#[some b, none]⟩

def buckets (c : Chain K V) : List (Bucket K V) := occupiedPrefix c.cells.toList

/-- The number of buckets: the place of the first vacant cell. -/
def length (c : Chain K V) : Nat := c.cells.findIdx Option.isNone

def get? (c : Chain K V) (i : Nat) : Option (Bucket K V) := c.cells[i]?.join

/-- The cell of the first bucket for a key. -/
def position? [BEq K] (c : Chain K V) (hash : UInt32) (k : K) : Option Nat :=
  c.buckets.findIdx? (·.isFor hash k)

/-- Adds a bucket behind the others, making two more cells if none is vacant. -/
def push (c : Chain K V) (b : Bucket K V) : Chain K V :=
  let vacant := c.length
  let cells := if vacant = c.cells.size then (c.cells.push none).push none else c.cells
  ⟨cells.setIfInBounds vacant (some b)⟩

/-- Vacates a cell and moves the last bucket into it. -/
def swapRemove (c : Chain K V) (i : Nat) : Chain K V :=
  let last := c.length - 1
  let moved := c.get? last
  if i = last then ⟨c.cells.setIfInBounds i none⟩
  else ⟨(c.cells.setIfInBounds last none).setIfInBounds i moved⟩

/-- The only bucket of a chain that holds one. -/
def single? (c : Chain K V) : Option (Bucket K V) := if c.length = 1 then c.get? 0 else none

def modifyValue (c : Chain K V) (i : Nat) (f : V → V) : Chain K V :=
  ⟨c.cells.modify i (Option.map fun b => { b with value := f b.value })⟩

end Chain

end FlatTable

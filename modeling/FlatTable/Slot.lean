import FlatTable.Chain

/-!
# Slots

A slot is empty, holds one pair, or holds a chain of at least two. A location names a bucket by its
slot and, in a chain, its cell.
-/

namespace FlatTable

universe u v

/-- What one place of the slot array holds. -/
inductive Slot (K : Type u) (V : Type v)
  | empty
  | pair (b : Bucket K V)
  | chained (c : Chain K V)

/-- Where a bucket stands. -/
inductive Location
  | primary (slot : Nat)
  | chained (slot cell : Nat)
deriving DecidableEq

def Location.slot : Location → Nat
  | .primary s => s
  | .chained s _ => s

namespace Slot

variable {K : Type u} {V : Type v}

instance : Inhabited (Slot K V) := ⟨.empty⟩

def buckets : Slot K V → List (Bucket K V)
  | empty => []
  | pair b => [b]
  | chained c => c.buckets

/-- Where slot `i` finds a key. -/
def locate? [BEq K] (i : Nat) (hash : UInt32) (k : K) : Slot K V → Option Location
  | empty => none
  | pair b => if b.isFor hash k then some (.primary i) else none
  | chained c => (c.position? hash k).map (.chained i)

/-- Where slot `i` puts a further bucket. -/
def vacancy (i : Nat) : Slot K V → Location
  | empty => .primary i
  | pair _ => .chained i 1
  | chained c => .chained i c.length

/-- Adds a bucket; a pair already there becomes the first of a chain. -/
def add (b : Bucket K V) : Slot K V → Slot K V
  | empty => pair b
  | pair first => chained ((Chain.ofBucket first).push b)
  | chained c => chained (c.push b)

/-- The bucket at a location, if the slot has the location's shape. -/
def bucketAt? : Location → Slot K V → Option (Bucket K V)
  | .primary _, pair b => some b
  | .chained _ i, chained c => c.get? i
  | _, _ => none

def modifyValue (f : V → V) : Location → Slot K V → Slot K V
  | .primary _, pair b => pair { b with value := f b.value }
  | .chained _ i, chained c => chained (c.modifyValue i f)
  | _, s => s

/-- The slot of a chain from which a bucket was taken: short chains are given up. -/
def ofChain (c : Chain K V) : Slot K V :=
  if c.length = 0 then empty
  else match c.single? with
    | some b => pair b
    | none => chained c

def remove : Location → Slot K V → Slot K V
  | .primary _, pair _ => empty
  | .chained _ i, chained c => ofChain (c.swapRemove i)
  | _, s => s

end Slot

end FlatTable

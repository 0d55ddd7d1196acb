import FlatTable.Table.Basic

/-!
# The journal of structural changes

What a table reports about itself while it works: doublings, slots whose pair becomes a chain, and
the reading of persisted forms. The entries of an operation are a function of the table before it,
so the operations themselves need not carry them.
-/

namespace FlatTable

universe u v

/-- An entry of the journal. -/
inductive Event
  | grew (capacity size : Nat)
  | saturated (capacity : Nat)
  | demoted (slot : Nat)
  | readForm (declared present : Nat)
deriving DecidableEq

def Event.line : Event → String
  | .grew capacity size =>
    s!"DEBUG growing slot table {capacity} -> {2 * capacity} slots ({size} pairs)"
  | .saturated capacity =>
    s!"WARN slot table at maximum capacity {capacity}; chains absorb further pairs"
  | .demoted slot => s!"TRACE slot {slot} demoted to an overflow chain"
  | .readForm declared present =>
    s!"DEBUG read persisted slot table: {declared} pairs declared, {present} present"

variable {K : Type u} {V : Type v}

/-- The entry, if any, that putting a bucket into the slot array gives rise to. -/
def placeEvents (slots : Array (Slot K V)) (b : Bucket K V) : List Event :=
  let i := slotIndex b.hash slots.size
  match slots[i]? with
  | some (.pair _) => [.demoted i]
  | _ => []

def placeAllEvents : Array (Slot K V) → List (Bucket K V) → List Event
  | _, [] => []
  | slots, b :: bs =>
    let events := placeEvents slots b
    events ++ placeAllEvents (place slots b).1 bs

namespace Table

def growEvents (t : Table K V) : List Event :=
  if maxCapacity ≤ t.slots.size then [.saturated t.slots.size]
  else .grew t.slots.size t.size :: placeAllEvents (emptySlots (2 * t.slots.size)) t.buckets

def insertEvents [BEq K] (t : Table K V) (k : K) (v : V) : List Event :=
  match t.locate? k with
  | some _ => []
  | none =>
    let placed := placeEvents t.slots ⟨t.spreadHash k, k, v⟩
    if t.maxSize < t.size + 1 then placed ++ (t.addNew (t.spreadHash k) k v).1.growEvents
    else placed

def getOrInsertEvents [BEq K] (t : Table K V) (k : K) (default : Option V) : List Event :=
  match t.locate? k with
  | some _ => []
  | none =>
    let grows := t.maxSize < t.size + 1
    let grown := if grows then t.grow else t
    let placed := match default with
      | none => []
      | some v => placeEvents grown.slots ⟨t.spreadHash k, k, v⟩
    if grows then t.growEvents ++ placed else placed

def extendEvents [BEq K] : Table K V → List (K × V) → List Event
  | _, [] => []
  | t, (k, v) :: pairs =>
    let events := t.insertEvents k v
    events ++ extendEvents (t.insert k v).2 pairs

end Table

end FlatTable

import FlatTable.Config
import FlatTable.Hash.Spread
import FlatTable.Slot

/-!
# Tables

A table keeps its pairs in an array of slots whose length is a power of two. A key is looked for in
the slot that its spread hash selects and nowhere else. When more pairs are stored than the load
factor allows, the array is doubled once and every bucket is placed anew by its cached hash, in
traversal order.
-/

namespace FlatTable

universe u v

/-- A hash table with overflow chains. -/
structure Table (K : Type u) (V : Type v) where
  /-- The hash of a key before it is spread. -/
  hash : K → UInt64
  slots : Array (Slot K V)
  size : Nat
  loadFactor : LoadFactor
  /-- The number of pairs beyond which the table grows. -/
  maxSize : Nat
  /-- Tells tables apart for the handles taken from them. -/
  id : Nat
  /-- Counts how often the table was cleared. -/
  generation : Nat

def emptySlots {K : Type u} {V : Type v} (capacity : Nat) : Array (Slot K V) :=
  Array.replicate capacity .empty

/-- Puts a bucket into the slot of its hash, behind those already there, and says where. -/
def place {K : Type u} {V : Type v} (slots : Array (Slot K V)) (b : Bucket K V) :
    Array (Slot K V) × Location :=
  let i := slotIndex b.hash slots.size
  let loc := (slots.getD i .empty).vacancy i
  (slots.modify i (Slot.add b), loc)

/-- All buckets in traversal order: slots ascending, each chain in chain order. -/
def bucketsOf {K : Type u} {V : Type v} (slots : Array (Slot K V)) : List (Bucket K V) :=
  slots.toList.flatMap Slot.buckets

def bucketAt? {K : Type u} {V : Type v} (slots : Array (Slot K V)) (loc : Location) :
    Option (Bucket K V) :=
  slots[loc.slot]?.bind (Slot.bucketAt? loc)

namespace Table

variable {K : Type u} {V : Type v}

def capacity (t : Table K V) : Nat := t.slots.size

def isEmpty (t : Table K V) : Bool := t.size == 0

/-- The number of cells: a key and a value for each slot. -/
def cellCount (t : Table K V) : Nat := 2 * t.slots.size

def buckets (t : Table K V) : List (Bucket K V) := bucketsOf t.slots

/-- The pairs in traversal order. -/
def toList (t : Table K V) : List (K × V) := t.buckets.map Bucket.toPair

def keys (t : Table K V) : List K := t.buckets.map (·.key)

def values (t : Table K V) : List V := t.buckets.map (·.value)

/-! ### Making tables -/

/-- An empty table of a configuration that is known to be valid. -/
def build (hash : K → UInt64) (config : Config) (id : Nat) : Table K V where
  hash := hash
  slots := emptySlots config.slotCapacity
  size := 0
  loadFactor := config.loadFactor
  maxSize := config.loadFactor.maxSize config.slotCapacity
  id := id
  generation := 0

def create (hash : K → UInt64) (config : Config) (id : Nat) : Except TableError (Table K V) :=
  match config.validate with
  | .error e => .error e
  | .ok _ => .ok (build hash config id)

/-- A table with the same pairs in the same places, and an identity of its own. -/
def clone (t : Table K V) (id : Nat) : Table K V := { t with id := id, generation := 0 }

/-! ### Looking up -/

def spreadHash (t : Table K V) (k : K) : UInt32 := spread (t.hash k)

/-- Where the pair of a key stands. -/
def locate? [BEq K] (t : Table K V) (k : K) : Option Location :=
  let h := t.spreadHash k
  let i := slotIndex h t.slots.size
  t.slots[i]?.bind (Slot.locate? i h k)

def bucketAt? (t : Table K V) (loc : Location) : Option (Bucket K V) :=
  FlatTable.bucketAt? t.slots loc

/-- The stored key and the value of a key. -/
def getEntry? [BEq K] (t : Table K V) (k : K) : Option (K × V) :=
  (t.locate? k).bind fun loc => (t.bucketAt? loc).map Bucket.toPair

def get? [BEq K] (t : Table K V) (k : K) : Option V := (t.getEntry? k).map Prod.snd

def contains [BEq K] (t : Table K V) (k : K) : Bool := (t.locate? k).isSome

def containsValue [BEq V] (t : Table K V) (v : V) : Bool := t.buckets.any (·.value == v)

/-! ### Growing -/

/--
Doubles the slot array. At the largest capacity the table stops growing for good and its chains take
all further pairs.
-/
def grow (t : Table K V) : Table K V :=
  if maxCapacity ≤ t.slots.size then { t with maxSize := wordLimit - 1 }
  else
    let capacity := 2 * t.slots.size
    { t with
      slots := t.slots.foldl (fun fresh s => s.buckets.foldl (fun fresh b => (place fresh b).1) fresh)
        (emptySlots capacity)
      maxSize := t.loadFactor.maxSize capacity }

/-! ### Changing -/

def modifyValueAt (t : Table K V) (loc : Location) (f : V → V) : Table K V :=
  { t with slots := t.slots.modify loc.slot (Slot.modifyValue f loc) }

/-- Adds a pair whose key is known to be absent, and says where it stands. -/
def addNew (t : Table K V) (hash : UInt32) (k : K) (v : V) : Table K V × Location :=
  let (slots, loc) := place t.slots ⟨hash, k, v⟩
  ({ t with slots := slots, size := t.size + 1 }, loc)

/--
Stores a value under a key. The value it replaces is given back and the key stored first stays; a
new pair is placed and may then make the table grow.
-/
def insert [BEq K] (t : Table K V) (k : K) (v : V) : Option V × Table K V :=
  match t.locate? k with
  | some loc => ((t.bucketAt? loc).map (·.value), t.modifyValueAt loc fun _ => v)
  | none =>
    let (t, _) := t.addNew (t.spreadHash k) k v
    (none, if t.maxSize < t.size then t.grow else t)

def extend [BEq K] (t : Table K V) (pairs : List (K × V)) : Table K V :=
  pairs.foldl (fun t p => (t.insert p.1 p.2).2) t

/-- Changes the value of a key in place; gives the new value. -/
def modify [BEq K] (t : Table K V) (k : K) (f : V → V) : Option V × Table K V :=
  match t.locate? k with
  | none => (none, t)
  | some loc => ((t.bucketAt? loc).map fun b => f b.value, t.modifyValueAt loc f)

/-- What asking for a value with a default gave. -/
inductive Obtained
  /-- The key was present; the default was not asked for. -/
  | found (loc : Location)
  /-- The default was stored. -/
  | inserted (loc : Location)
  /-- The default was asked for and gave no value. -/
  | aborted

/--
Finds the pair of a key, or stores a default under it; a default that is `none` aborts. The table
grows before the new pair is placed, so that its location stays good, and stays grown if the default
aborts.
-/
def getOrInsert [BEq K] (t : Table K V) (k : K) (default : Option V) : Obtained × Table K V :=
  match t.locate? k with
  | some loc => (.found loc, t)
  | none =>
    let t := if t.maxSize < t.size + 1 then t.grow else t
    match default with
    | none => (.aborted, t)
    | some v =>
      let (t, loc) := t.addNew (t.spreadHash k) k v
      (.inserted loc, t)

/-- The table without the bucket at a location; the last of its chain takes its place. -/
def dropAt (t : Table K V) (loc : Location) : Table K V :=
  { t with slots := t.slots.modify loc.slot (Slot.remove loc), size := t.size - 1 }

/-- Takes out the bucket at a location, if there is one. -/
def removeAt? (t : Table K V) (loc : Location) : Option (Bucket K V) × Table K V :=
  match t.bucketAt? loc with
  | none => (none, t)
  | some b => (some b, t.dropAt loc)

/-- Takes out the pair of a key. -/
def removeEntry [BEq K] (t : Table K V) (k : K) : Option (K × V) × Table K V :=
  match t.locate? k with
  | none => (none, t)
  | some loc =>
    let (b, t) := t.removeAt? loc
    (b.map Bucket.toPair, t)

/-- Takes out the pair of a key and gives its value. -/
def remove [BEq K] (t : Table K V) (k : K) : Option V × Table K V :=
  let (entry, t) := t.removeEntry k
  (entry.map Prod.snd, t)

/-- Takes out all pairs. The capacity stays, and handles taken before go stale. -/
def clear (t : Table K V) : Table K V :=
  { t with slots := emptySlots t.slots.size, size := 0, generation := t.generation + 1 }

/-! ### Comparing -/

/-- Whether two tables hold equal values under the same keys, whatever their layouts. -/
def equals [BEq K] [BEq V] (t u : Table K V) : Bool :=
  t.size == u.size && t.buckets.all fun b => (u.get? b.key).any (b.value == ·)

end Table

end FlatTable

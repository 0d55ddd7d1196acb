import FlatTable.Error

/-!
# Table configuration

The requested capacity and load factor of a table, the conditions on them, and the capacity chosen
for a table that is rebuilt from a known number of pairs.
-/

namespace FlatTable

def defaultCapacity : Nat := 8

/-- The largest capacity, reached by this many doublings of one. -/
def maxDoublings : Nat := 30

def maxCapacity : Nat := twoPow maxDoublings

/-- The requested capacity and load factor of a table. -/
structure Config where
  initialCapacity : Nat := defaultCapacity
  loadFactor : LoadFactor := .standard
deriving DecidableEq

namespace Config

/-- The configuration of a table made without one. -/
def standard : Config := {}

/-- Accepts a valid load factor and a capacity within the limit; the load factor is looked at first. -/
def validate (c : Config) : Except TableError Unit :=
  if !c.loadFactor.isValid then .error (.invalidArgument (.loadFactor c.loadFactor))
  else if maxCapacity < c.initialCapacity then
    .error (.invalidArgument (.capacity c.initialCapacity maxCapacity))
  else .ok ()

/-- The number of slots made: the least power of two at or above the request. -/
def slotCapacity (c : Config) : Nat := (max c.initialCapacity 1).nextPowerOfTwo

/-- Whether a capacity is enough to be made ready for `count` pairs at this load factor. -/
def enoughFor (lf : LoadFactor) (count capacity : Nat) : Bool :=
  decide (count ≤ lf.maxSize capacity ∨ 2 * count ≤ capacity)

/-- The first sufficient capacity among `capacity` and its next `doublings` doublings. -/
def fit? (lf : LoadFactor) (count : Nat) : (doublings capacity : Nat) → Option Nat
  | 0, capacity => if enoughFor lf count capacity then some capacity else none
  | doublings + 1, capacity =>
    if enoughFor lf count capacity then some capacity else fit? lf count doublings (2 * capacity)

/--
The configuration of a table to be rebuilt from `count` pairs. It holds them without growing, or,
where the load factor is so small that this would take more than twice as many slots as pairs, stops
there and leaves the rest to growth.
-/
def forPersisted (count : Nat) (lf : LoadFactor) : Except TableError Config := do
  Config.validate { loadFactor := lf }
  match fit? lf count maxDoublings 1 with
  | some capacity => return { initialCapacity := capacity, loadFactor := lf }
  | none => throw (.invalidArgument (.tooManyPairs count))

end Config

end FlatTable

/-!
# Association lists

A finite map as a list of pairs, oldest first, in which keys are told apart by a given relation. It
stands beside the tables as the plain thing they implement.
-/

namespace FlatTable

universe u v

/-- A finite map as a list of pairs. -/
structure PairMap (K : Type u) (V : Type v) where
  pairs : List (K × V) := []

namespace PairMap

variable {K : Type u} {V : Type v} (same : K → K → Bool)

/-- The stored key and the value of a key. -/
def find? (m : PairMap K V) (k : K) : Option (K × V) := m.pairs.find? fun p => same p.1 k

/-- Replaces the value of a key, whose stored key stays, or adds the pair at the end. -/
def insert (m : PairMap K V) (k : K) (v : V) : PairMap K V :=
  if m.pairs.any fun p => same p.1 k then
    ⟨m.pairs.map fun p => if same p.1 k then (p.1, v) else p⟩
  else ⟨m.pairs ++ [(k, v)]⟩

def erase (m : PairMap K V) (k : K) : PairMap K V := ⟨m.pairs.filter fun p => !same p.1 k⟩

def size (m : PairMap K V) : Nat := m.pairs.length

/-- The map of a list of pairs, later ones replacing the values of earlier ones. -/
def ofList (pairs : List (K × V)) : PairMap K V :=
  pairs.foldl (fun m p => m.insert same p.1 p.2) {}

end PairMap

end FlatTable

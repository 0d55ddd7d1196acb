import FlatTable.Error

/-!
# Sections of a cell array

Each slot stands for two cells, a key and a value. A run of cells is divided into sections of equal
size; the last takes the remainder, and an odd boundary moves up by one so that every section starts
at a key.
-/

namespace FlatTable

/-- The number itself, or the next one if it is odd. -/
def evenUp (n : Nat) : Nat := n + n % 2

/-- A half-open range of cells. -/
structure CellRange where
  start : Nat
  stop : Nat
deriving DecidableEq

/-- The cells of section `index` out of `count`, for an index in range. -/
def sectionRange (cells index count : Nat) : CellRange :=
  let size := cells / count
  let start := min (evenUp (index * size)) cells
  let stop := if index + 1 = count then cells else min (evenUp ((index + 1) * size)) cells
  ⟨start, stop⟩

/-- The cells of section `index` out of `count`. -/
def sectionBounds (cells index count : Nat) : Except TableError CellRange :=
  if count = 0 then .error (.invalidArgument .noSections)
  else if count ≤ index then .error (.invalidArgument (.sectionIndex index count))
  else .ok (sectionRange cells index count)

end FlatTable

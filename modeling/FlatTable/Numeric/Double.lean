import FlatTable.Numeric.NumberStyle

/-!
# 64-bit floating-point values

A value is its bit pattern, so that patterns which are not numbers keep their identity when stored.
Comparison and the few operations that reading numbers needs are computed exactly and rounded once.
-/

namespace FlatTable

/-- A 64-bit floating-point value, as its bit pattern. -/
structure Double where
  bits : UInt64
deriving DecidableEq

namespace Double

/-- The pattern with the given sign and magnitude. -/
def ofMagnitude (negative : Bool) (w : Nat) : Double :=
  ⟨(FloatFormat.double.withSign negative w).toUInt64⟩

def magnitude (x : Double) : Nat := FloatFormat.double.magnitude x.bits.toNat

def isNegative (x : Double) : Bool := FloatFormat.double.isNegative x.bits.toNat

/-- Whether the pattern stands for no number. -/
def isNaN (x : Double) : Bool := decide (FloatFormat.double.infinity < x.magnitude)

/-- Equality of values: a pattern that is no number equals nothing, and the two zeros are equal. -/
instance : BEq Double where
  beq x y := !x.isNaN && !y.isNaN && (x.bits == y.bits || (x.magnitude == 0 && y.magnitude == 0))

/-- The value of a magnitude, counted in steps of `2⁻¹⁰⁷⁴`. -/
def steps (w : Nat) : Nat := FloatFormat.double.steps w

/-- The magnitude nearest to a natural number. -/
def nearestNat (n : Nat) : Nat := FloatFormat.double.roundRatio n 1

/-- The magnitude nearest to a product of two finite magnitudes. -/
def mulMagnitude (a b : Nat) : Nat :=
  FloatFormat.double.roundRatio (steps a * steps b) (twoPow (2 * FloatFormat.double.scale))

/-- The magnitude nearest to a quotient of two finite magnitudes, the second not zero. -/
def divMagnitude (a b : Nat) : Nat := FloatFormat.double.roundRatio (steps a) (steps b)

/-- The bit pattern of the nearest 32-bit value to a finite one. -/
def toSingleBits (x : Double) : UInt32 :=
  (FloatFormat.single.withSign x.isNegative
    (FloatFormat.single.roundRatio (steps x.magnitude) (twoPow FloatFormat.double.scale))).toUInt32

/-- Data text writes whole values with a point and the patterns it cannot express as null. -/
def inData : NumberStyle where
  tie := .toEven
  isPositional := fun point => decide (-5 < point ∧ point ≤ 16)
  wholeSuffix := ".0"
  exponentSign := "+"
  notANumber := "null"
  infinite := fun _ => "null"

/-- Listings write whole values with a point and the other patterns by name. -/
def inListing : NumberStyle where
  tie := .up
  isPositional := fun point => decide (-4 < point ∧ point ≤ 16)
  wholeSuffix := ".0"
  exponentSign := ""
  notANumber := "NaN"
  infinite := fun negative => if negative then "-inf" else "inf"

def dataText (x : Double) : String := inData.write .double x.bits.toNat

def listingText (x : Double) : String := inListing.write .double x.bits.toNat

end Double

end FlatTable

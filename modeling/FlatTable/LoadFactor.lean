import FlatTable.Numeric.NumberStyle

/-!
# Load factors

A load factor is a 32-bit floating-point number kept as its bit pattern, so that a persisted form
gives back the very pattern it was made from. The threshold it sets is computed from its exact
value.
-/

namespace FlatTable

/-- A load factor, as the bit pattern of a 32-bit floating-point number. -/
structure LoadFactor where
  bits : UInt32
deriving DecidableEq

namespace LoadFactor

/-- Three quarters. -/
def standard : LoadFactor := ⟨0x3f400000⟩

/-- One thirty-second, the least accepted. -/
def least : LoadFactor := ⟨0x3d000000⟩

def magnitude (lf : LoadFactor) : Nat := FloatFormat.single.magnitude lf.bits.toNat

/-- The value's magnitude, counted in steps of `2⁻¹⁴⁹`. -/
def steps (lf : LoadFactor) : Nat := FloatFormat.single.steps lf.magnitude

/-- Whether tables may have this load factor: finite and at least one thirty-second. -/
def isValid (lf : LoadFactor) : Bool :=
  !FloatFormat.single.isNegative lf.bits.toNat
    && decide (lf.magnitude < FloatFormat.single.infinity)
    && decide (least.steps ≤ lf.steps)

/--
The number of pairs a slot array of this capacity holds before it grows: the capacity times the
exact load factor, rounded down, and always less than the capacity.
-/
def maxSize (lf : LoadFactor) (capacity : Nat) : Nat :=
  min (capacity * lf.steps / twoPow FloatFormat.single.scale) (capacity - 1)

/-- Messages write load factors without an exponent and whole ones without a point. -/
def inMessage : NumberStyle where
  tie := .up
  isPositional := fun _ => true
  wholeSuffix := ""
  exponentSign := ""
  notANumber := "NaN"
  infinite := fun negative => if negative then "-inf" else "inf"

/-- Data text writes whole load factors with a point, and the patterns it cannot express as null. -/
def inData : NumberStyle where
  tie := .toEven
  isPositional := fun point => decide (-6 < point ∧ point ≤ 13)
  wholeSuffix := ".0"
  exponentSign := "+"
  notANumber := "null"
  infinite := fun _ => "null"

def messageText (lf : LoadFactor) : String := inMessage.write .single lf.bits.toNat

def dataText (lf : LoadFactor) : String := inData.write .single lf.bits.toNat

end LoadFactor

end FlatTable

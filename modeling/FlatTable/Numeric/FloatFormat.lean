import FlatTable.Numeric.Power

/-!
# Binary floating-point formats

A finite magnitude of a binary interchange format is a whole number of the format's smallest steps,
so its exact value is a natural number over a fixed power of two. Reading a bit pattern and rounding
a ratio to the nearest one are then plain arithmetic on natural numbers.
-/

namespace FlatTable

/-- A binary interchange format, given by its significant bits and its exponent bits. -/
structure FloatFormat where
  precision : Nat
  exponentBits : Nat

/-- The quotient rounded to the nearest whole number, a half going to the even neighbour. -/
def divRoundEven (num den : Nat) : Nat :=
  let q := num / den
  let r := num % den
  if 2 * r < den then q
  else if den < 2 * r then q + 1
  else q + q % 2

namespace FloatFormat

def single : FloatFormat := ⟨24, 8⟩

def double : FloatFormat := ⟨53, 11⟩

variable (f : FloatFormat)

/-- Bits of the stored fraction; the leading bit of a normal number is implied. -/
def fractionBits : Nat := f.precision - 1

/-- The smallest positive magnitude is two to the power of minus this number. -/
def scale : Nat := twoPow (f.exponentBits - 1) + f.fractionBits - 2

/-- The magnitude bits of infinity; those above it are not numbers. -/
def infinity : Nat := (twoPow f.exponentBits - 1) * twoPow f.fractionBits

/-- The weight of the sign bit in a bit pattern. -/
def signBit : Nat := twoPow (f.exponentBits + f.fractionBits)

/-- The bit pattern without its sign. -/
def magnitude (bits : Nat) : Nat := bits % f.signBit

def isNegative (bits : Nat) : Bool := decide (bits / f.signBit % 2 = 1)

/-- The bit pattern of a magnitude with the given sign. -/
def withSign (negative : Bool) (w : Nat) : Nat := if negative then f.signBit + w else w

/-- The value of a magnitude, counted in smallest steps. -/
def steps (w : Nat) : Nat :=
  let e := w / twoPow f.fractionBits
  let m := w % twoPow f.fractionBits
  if e = 0 then m else (twoPow f.fractionBits + m) * twoPow (e - 1)

/--
The magnitude nearest to a ratio, a tie going to the even pattern, and infinity past the largest
one. With `e` the binade's shift, the pattern is `e` carries of the fraction plus the significand:
a significand that rounds up to the next power of two carries into the exponent by itself.
-/
def roundRatio (num den : Nat) : Nat :=
  let e := Nat.log2 (num * twoPow f.scale / den) - f.fractionBits
  min (e * twoPow f.fractionBits + divRoundEven (num * twoPow f.scale) (den * twoPow e)) f.infinity

end FloatFormat

end FlatTable

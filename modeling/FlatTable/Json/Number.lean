import FlatTable.Json.Reader

/-!
# Numbers in JSON text

A number without fraction and exponent that fits in 64 bits is read exactly. Any other is read as a
64-bit floating-point value from its leading digits: those that fit in 64 bits, the rest dropped and
counted, then scaled once by a power of ten, so at most three roundings separate it from the text.
-/

namespace FlatTable.Json

inductive Number
  | natural (n : Nat)
  | negative (n : Nat)
  | real (x : Double)

/-- Appends digits to a significand while it stays below the number of 64-bit words; also says how many. -/
def absorb (significand : Nat) : List Char → Nat × Nat
  | [] => (significand, 0)
  | d :: ds =>
    let longer := significand * 10 + (d.toNat - '0'.toNat)
    if longer < wordLimit then
      let (s, taken) := absorb longer ds
      (s, taken + 1)
    else (significand, 0)

/-- The largest power of ten by which a value is scaled in one step. -/
def maxPower : Nat := 308

/--
Scales a magnitude by a power of ten, nothing if it grows past the largest one. Below the smallest
power it is first divided by that one; after two such steps it is zero, which `fuel` allows for.
-/
def scalePower : (fuel : Nat) → (w : Nat) → Int → Option Nat
  | 0, w, _ => some w
  | fuel + 1, w, e =>
    if e.natAbs ≤ maxPower then
      let power := Double.nearestNat (tenPow e.natAbs)
      if 0 ≤ e then
        let product := Double.mulMagnitude w power
        if product = FloatFormat.double.infinity then none else some product
      else some (Double.divMagnitude w power)
    else if w = 0 then some 0
    else if 0 ≤ e then none
    else scalePower fuel (Double.divMagnitude w (Double.nearestNat (tenPow maxPower))) (e + maxPower)

/-- The value of a significand and a power of ten. -/
def realNumber (negative : Bool) (significand : Nat) (e : Int) : Reader Number :=
  match scalePower 4 (Double.nearestNat significand) e with
  | some w => return .real (Double.ofMagnitude negative w)
  | none => fail .malformed

def wholeNumber (negative : Bool) (significand : Nat) : Number :=
  if !negative then .natural significand
  else if 0 < significand ∧ significand ≤ twoPow 63 then .negative significand
  else .real (Double.ofMagnitude true (Double.nearestNat significand))

def digits : Reader (List Char) := fun cs => .ok (cs.span Char.isDigit)

/-- The exponent after its letter; `e` is the power of ten that the digits already call for. -/
def exponentPart (negative : Bool) (significand : Nat) (e : Int) : Reader Number := do
  let down ← match ← get with
    | '+' :: rest => do set rest; pure false
    | '-' :: rest => do set rest; pure true
    | _ => pure false
  match ← get with
  | [] => fail .truncated
  | c :: _ =>
    if !c.isDigit then fail .malformed
    else
      let ds ← digits
      let n := ds.foldl (fun n d => n * 10 + (d.toNat - '0'.toNat)) 0
      if n < twoPow 31 then realNumber negative significand (if down then e - n else e + n)
      else if significand ≠ 0 ∧ !down then fail .malformed
      else return .real (Double.ofMagnitude negative 0)

/-- The fraction after its point; `dropped` digits of the integer part did not fit. -/
def fractionPart (negative : Bool) (significand dropped : Nat) : Reader Number := do
  let ds ← digits
  if ds.isEmpty then
    match ← get with
    | [] => fail .truncated
    | _ :: _ => fail .malformed
  else
    let (s, taken) := absorb significand ds
    let e : Int := dropped - taken
    match ← get with
    | c :: rest =>
      if c = 'e' ∨ c = 'E' then set rest; exponentPart negative s e
      else realNumber negative s e
    | [] => realNumber negative s e

/-- The integer part: its significand and the number of digits that did not fit. -/
def integerPart : Reader (Nat × Nat) := do
  match ← get with
  | [] => fail .truncated
  | '0' :: rest =>
    if rest.head?.any Char.isDigit then fail .malformed
    else do set rest; return (0, 0)
  | c :: _ =>
    if !c.isDigit then fail .malformed
    else
      let ds ← digits
      let (s, taken) := absorb 0 ds
      return (s, ds.length - taken)

/-- A number whose sign has been taken. -/
def unsignedNumber (negative : Bool) : Reader Number := do
  let (s, dropped) ← integerPart
  match ← get with
  | '.' :: rest => do set rest; fractionPart negative s dropped
  | c :: rest =>
    if c = 'e' ∨ c = 'E' then set rest; exponentPart negative s dropped
    else if dropped = 0 then return wholeNumber negative s
    else realNumber negative s dropped
  | [] => if dropped = 0 then return wholeNumber negative s else realNumber negative s dropped

/-- The bit pattern of the nearest 32-bit value to a number. -/
def Number.toSingleBits : Number → UInt32
  | .natural n => (FloatFormat.single.roundRatio n 1).toUInt32
  | .negative n => (FloatFormat.single.withSign true (FloatFormat.single.roundRatio n 1)).toUInt32
  | .real x => x.toSingleBits

/-- The nearest 64-bit value to a number. -/
def Number.toDouble : Number → Double
  | .natural n => Double.ofMagnitude false (Double.nearestNat n)
  | .negative n => Double.ofMagnitude true (Double.nearestNat n)
  | .real x => x

def Number.found : Number → Found
  | .natural n => .natural n
  | .negative n => .negative n
  | .real x => .real x

end FlatTable.Json

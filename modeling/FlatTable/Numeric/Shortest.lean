import FlatTable.Numeric.FloatFormat

/-!
# Shortest decimal digits

The fewest decimal digits that read back as a given binary magnitude, and of those the nearest to
its value. The reals that read back form an interval around the value, which holds its ends exactly
when the pattern is even. On the grid of `n` digits only the value's two neighbours can be nearest,
so one test for each `n` finds the digits.
-/

namespace FlatTable

/-- The decimal number `digits · 10 ^ exponent`. -/
structure Decimal where
  digits : Nat
  exponent : Int

/-- Where a value goes that lies midway between two candidates. -/
inductive Tie
  | toEven
  | up

namespace Decimal

/-- The largest power of ten that is at most the positive ratio, as an exponent. -/
def leadingExponent (num den : Nat) : Int :=
  if den ≤ num then ((Nat.toDigits 10 (num / den)).length : Int) - 1
  else
    let q := den / num
    let d := (Nat.toDigits 10 q).length
    if q = tenPow (d - 1) ∧ den % num = 0 then 1 - (d : Int) else -(d : Int)

/-- Moves trailing zeros of the digits into the exponent; `fuel` bounds their number. -/
def strip : Nat → Decimal → Decimal
  | 0, x => x
  | fuel + 1, x =>
    if x.digits ≠ 0 ∧ x.digits % 10 = 0 then strip fuel ⟨x.digits / 10, x.exponent + 1⟩ else x

end Decimal

/-- The nearer of two neighbouring candidates of which at least one reads back. -/
def Tie.choose (tie : Tie) (low : Nat) (lowFits highFits : Bool) (below above : Nat) : Option Nat :=
  match lowFits, highFits with
  | false, false => none
  | true, false => some low
  | false, true => some (low + 1)
  | true, true =>
    if below < above then some low
    else if above < below then some (low + 1)
    else match tie with
      | .up => some (low + 1)
      | .toEven => some (low + low % 2)

namespace FloatFormat

variable (f : FloatFormat)

/--
The candidate of the grid `10 ^ k` that reads back as the magnitude `w`, if there is one. The value
and the ends of its interval are compared in halves of a smallest step.
-/
def gridCandidate (tie : Tie) (w : Nat) (k : Int) : Option Nat :=
  let up := tenPow (-k).toNat
  let unit := twoPow (f.scale + 1) * tenPow k.toNat
  let value := 2 * f.steps w * up
  let floor := (f.steps (w - 1) + f.steps w) * up
  let ceiling := (f.steps w + f.steps (w + 1)) * up
  let low := value / unit
  let even := w % 2 = 0
  let lowFits := decide (floor < low * unit ∨ (even ∧ floor = low * unit))
  let highFits := decide ((low + 1) * unit < ceiling ∨ (even ∧ (low + 1) * unit = ceiling))
  tie.choose low lowFits highFits (value - low * unit) ((low + 1) * unit - value)

/-- Tries the grids of `n`, `n + 1`, … digits; `fuel` bounds how many. -/
def shortestFrom (tie : Tie) (w : Nat) (top : Int) : Nat → Nat → Decimal
  | 0, n => ⟨0, top - n⟩
  | fuel + 1, n =>
    match f.gridCandidate tie w (top - n + 1) with
    | some d => Decimal.strip 20 ⟨d, top - n + 1⟩
    | none => shortestFrom tie w top fuel (n + 1)

/-- The shortest decimal that reads back as a finite positive magnitude. -/
def shortest (tie : Tie) (w : Nat) : Decimal :=
  f.shortestFrom tie w (Decimal.leadingExponent (f.steps w) (twoPow f.scale)) 17 1

end FloatFormat

end FlatTable

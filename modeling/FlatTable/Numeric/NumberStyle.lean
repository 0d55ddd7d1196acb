import FlatTable.Numeric.Shortest

/-!
# How a number is written

A style fixes everything the shortest digits leave open: where positional writing gives way to an
exponent and how that is signed, whether a whole number shows a point, and the texts of the patterns
that are not finite.
-/

namespace FlatTable

/-- The choices of one way to write floating-point numbers. -/
structure NumberStyle where
  /-- Which of two equally near shortest candidates is taken. -/
  tie : Tie
  /-- Whether digits with the point after this many of them are written without an exponent. -/
  isPositional : Int → Bool
  /-- What follows a whole number. -/
  wholeSuffix : String
  /-- What marks an exponent that is not negative. -/
  exponentSign : String
  /-- The text of a pattern that is not a number. -/
  notANumber : String
  /-- The text of infinity, given whether it is negative. -/
  infinite : Bool → String

namespace NumberStyle

variable (style : NumberStyle)

def zeros (n : Nat) : String := String.ofList (List.replicate n '0')

/-- The digits with the point after `point` of them. -/
def positional (ds : String) (point : Int) : String :=
  if point ≤ 0 then "0." ++ zeros (-point).toNat ++ ds
  else if (ds.length : Int) ≤ point then ds ++ zeros (point - ds.length).toNat ++ style.wholeSuffix
  else
    let cs := ds.toList
    String.ofList (cs.take point.toNat) ++ "." ++ String.ofList (cs.drop point.toNat)

/-- One digit, the point, the others, and the exponent of the first. -/
def scientific (ds : String) (point : Int) : String :=
  match ds.toList with
  | [] => ""
  | c :: cs =>
    let fraction := if cs.isEmpty then "" else "." ++ String.ofList cs
    let sign := if 1 ≤ point then style.exponentSign else ""
    String.singleton c ++ fraction ++ "e" ++ sign ++ toString (point - 1)

def decimal (x : Decimal) : String :=
  let ds := toString x.digits
  let point := (ds.length : Int) + x.exponent
  if style.isPositional point then style.positional ds point else style.scientific ds point

def write (f : FloatFormat) (bits : Nat) : String :=
  let w := f.magnitude bits
  let negative := f.isNegative bits
  if f.infinity < w then style.notANumber
  else if w = f.infinity then style.infinite negative
  else
    let body := if w = 0 then "0" ++ style.wholeSuffix else style.decimal (f.shortest style.tie w)
    if negative then "-" ++ body else body

end NumberStyle

end FlatTable

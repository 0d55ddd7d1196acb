import FlatTable.Json.Number
import FlatTable.Json.Text

/-!
# Single JSON values

Readers for the kinds of value that are stored. A value of another kind is taken as a whole before
it is refused, so that a fault inside it is reported first; a sequence or map is refused at once.
-/

namespace FlatTable.Json

/-- Takes whatever stands next and says what it is. -/
def found : Reader Found := do
  match ← peek with
  | some 'n' => do advance; keyword ['u', 'l', 'l']; return .null
  | some 't' => do advance; keyword ['r', 'u', 'e']; return .boolean true
  | some 'f' => do advance; keyword ['a', 'l', 's', 'e']; return .boolean false
  | some '-' => do advance; return (← unsignedNumber true).found
  | some '"' => do advance; return .text (← textBody true)
  | some '[' => return .sequence
  | some '{' => return .map
  | some c => if c.isDigit then return (← unsignedNumber false).found else fail .malformed
  | none => fail .malformed

/-- Refuses the value that stands next, for the reason given by what it is. -/
def refuse {α : Type} (why : Found → Unsuited) : Reader α := do fail (.unsuited (why (← found)))

def refuseElement {α : Type} : Reader α := refuse fun _ => .element

def number : Reader Number := do
  match ← peek with
  | none => fail .truncated
  | some '-' => do advance; unsignedNumber true
  | some c => if c.isDigit then unsignedNumber false else refuseElement

/-- A whole number of 64 bits without sign. -/
def natural : Reader Nat := do
  match ← number with
  | .natural n => return n
  | _ => fail (.unsuited .element)

/-- A whole number of 64 bits with sign. -/
def integer : Reader Int64 := do
  match ← number with
  | .natural n => if n < twoPow 63 then return Int64.ofNat n else fail (.unsuited .element)
  | .negative n => return -Int64.ofNat n
  | .real _ => fail (.unsuited .element)

def text : Reader String := do
  match ← peek with
  | none => fail .truncated
  | some '"' => do advance; textBody true
  | some _ => refuseElement

/-- Nothing, or what another reader takes. -/
def optional {α : Type} (read : Reader α) : Reader (Option α) := do
  match ← peek with
  | some 'n' => do advance; keyword ['u', 'l', 'l']; return none
  | _ => return some (← read)

def openSequence (why : Found → Unsuited) : Reader Unit := do
  match ← peek with
  | none => fail .truncated
  | some '[' => advance
  | some _ => refuse why

/-- A sequence of exactly two elements. -/
def two {α β : Type} (first : Reader α) (second : Reader β) : Reader (α × β) := do
  openSequence fun _ => .element
  if !(← nextItem true) then fail (.unsuited .element)
  let a ← first
  if !(← nextItem false) then fail (.unsuited .element)
  let b ← second
  endSequence
  return (a, b)

/-- Reads a whole text as one value. -/
def readAll {α : Type} (read : Reader α) (text : String) : Except JsonError α := do
  let (a, rest) ← read.run text.toList
  let _ ← endText.run rest
  return a

end FlatTable.Json

import FlatTable.Json.Text

/-!
# Passing over a JSON value

A value that nobody asked for is still held to the grammar, but numbers are not evaluated and
surrogates not paired.
-/

namespace FlatTable.Json

def skipDigits : Reader Unit := modify (List.dropWhile Char.isDigit)

/-- At least one digit, and those after it. -/
def skipSomeDigits : Reader Unit := do
  if (← get).head?.any Char.isDigit then skipDigits else fail .malformed

/-- An exponent whose letter has been taken. -/
def skipExponent : Reader Unit := do
  match ← get with
  | c :: rest => if c = '+' ∨ c = '-' then set rest; skipSomeDigits else skipSomeDigits
  | [] => skipSomeDigits

/-- A number whose sign has been taken. Unlike a number that is read, one cut short is malformed. -/
def skipNumber : Reader Unit := do
  match ← get with
  | '0' :: rest => if rest.head?.any Char.isDigit then fail .malformed else set rest
  | _ => skipSomeDigits
  match ← get with
  | '.' :: rest => do
    set rest
    skipSomeDigits
    match ← get with
    | c :: rest => if c = 'e' ∨ c = 'E' then set rest; skipExponent
    | [] => return
  | c :: rest => if c = 'e' ∨ c = 'E' then set rest; skipExponent
  | [] => return

/-- What stands next. -/
inductive Part
  | value
  | items
  | members

/-- Passes over one value, or the rest of a sequence or map that is known to hold more. -/
def skipPart : (fuel : Nat) → Part → Reader Unit
  | 0, _ => fail .truncated
  | fuel + 1, .value => do
    match ← peek with
    | none => fail .truncated
    | some 'n' => do advance; keyword ['u', 'l', 'l']
    | some 't' => do advance; keyword ['r', 'u', 'e']
    | some 'f' => do advance; keyword ['a', 'l', 's', 'e']
    | some '-' => do advance; skipNumber
    | some '"' => do advance; discard (textBody false)
    | some '[' => do
      advance
      match ← peek with
      | none => fail .truncated
      | some ']' => advance
      | some _ => skipPart fuel .items
    | some '{' => do
      advance
      match ← peek with
      | none => fail .truncated
      | some '}' => advance
      | some _ => skipPart fuel .members
    | some c => if c.isDigit then skipNumber else fail .malformed
  | fuel + 1, .items => do
    skipPart fuel .value
    match ← peek with
    | none => fail .truncated
    | some ']' => advance
    | some ',' => do advance; skipPart fuel .items
    | some _ => fail .malformed
  | fuel + 1, .members => do
    match ← peek with
    | none => fail .truncated
    | some '"' => do
      advance
      discard (textBody false)
      colon
      skipPart fuel .value
      match ← peek with
      | none => fail .truncated
      | some '}' => advance
      | some ',' => do advance; skipPart fuel .members
      | some _ => fail .malformed
    | some _ => fail .malformed

/-- Passes over one value; every step takes a character, so twice their number is enough fuel. -/
def skipValue : Reader Unit := do skipPart (2 * (← get).length + 1) .value

end FlatTable.Json

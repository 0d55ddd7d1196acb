import FlatTable.Json.Reader

/-!
# Quoted text in JSON

The characters between two quotes, with their escapes. A character outside the first plane is
escaped as a pair of surrogates; where the text is only passed over, unpaired ones go unnoticed.
-/

namespace FlatTable.Json

def hexDigit? (c : Char) : Option Nat :=
  if '0' ≤ c ∧ c ≤ '9' then some (c.toNat - '0'.toNat)
  else if 'a' ≤ c ∧ c ≤ 'f' then some (c.toNat - 'a'.toNat + 10)
  else if 'A' ≤ c ∧ c ≤ 'F' then some (c.toNat - 'A'.toNat + 10)
  else none

/-- The bytes that characters take in UTF-8. -/
def byteLength (cs : List Char) : Nat := cs.foldl (fun n c => n + c.utf8Size) 0

/-- Four hexadecimal digits; the text ends early if fewer than four bytes are left. -/
def hexUnit (cs : List Char) : Except JsonError (Nat × List Char) :=
  if byteLength (cs.take 4) < 4 then .error .truncated
  else match (cs.take 4).mapM hexDigit? with
    | some [a, b, c, d] => .ok (((a * 16 + b) * 16 + c) * 16 + d, cs.drop 4)
    | _ => .error .malformed

/-- Whether a unit is the first of a surrogate pair. -/
def isLeading (n : Nat) : Bool := decide (0xd800 ≤ n ∧ n ≤ 0xdbff)

/-- Whether a unit is the second of a surrogate pair. -/
def isTrailing (n : Nat) : Bool := decide (0xdc00 ≤ n ∧ n ≤ 0xdfff)

/-- The second unit of a pair, escaped in its turn, and the character of both. -/
def trailingUnit (leading : Nat) : List Char → Except JsonError (Char × List Char)
  | [] => .error .truncated
  | ['\\'] => .error .truncated
  | '\\' :: 'u' :: cs => do
    let (n, rest) ← hexUnit cs
    if isTrailing n then
      return (Char.ofNat ((leading - 0xd800) * 0x400 + (n - 0xdc00) + 0x10000), rest)
    else throw .malformed
  | _ => .error .malformed

/-- The character of an escape whose backslash has been taken. -/
def escaped (paired : Bool) : List Char → Except JsonError (Char × List Char)
  | [] => .error .truncated
  | 'u' :: cs => do
    let (n, rest) ← hexUnit cs
    if !paired then return (Char.ofNat n, rest)
    else if isTrailing n then throw .malformed
    else if isLeading n then trailingUnit n rest
    else return (Char.ofNat n, rest)
  | '"' :: cs => .ok ('"', cs)
  | '\\' :: cs => .ok ('\\', cs)
  | '/' :: cs => .ok ('/', cs)
  | 'b' :: cs => .ok ('\x08', cs)
  | 'f' :: cs => .ok ('\x0c', cs)
  | 'n' :: cs => .ok ('\n', cs)
  | 'r' :: cs => .ok ('\r', cs)
  | 't' :: cs => .ok ('\t', cs)
  | _ :: _ => .error .malformed

/-- The characters up to the closing quote; every step takes one, so their number is enough fuel. -/
def textFrom (paired : Bool) : (fuel : Nat) → (reversed cs : List Char) →
    Except JsonError (List Char × List Char)
  | 0, _, _ => .error .truncated
  | _ + 1, _, [] => .error .truncated
  | fuel + 1, reversed, c :: cs =>
    if c = '"' then .ok (reversed.reverse, cs)
    else if c = '\\' then do
      let (d, rest) ← escaped paired cs
      textFrom paired fuel (d :: reversed) rest
    else if c.toNat < 0x20 then .error .malformed
    else textFrom paired fuel (c :: reversed) cs

/-- Text whose opening quote has been taken. -/
def textBody (paired : Bool) : Reader String := fun cs => do
  let (chars, rest) ← textFrom paired (cs.length + 1) [] cs
  return (String.ofList chars, rest)

end FlatTable.Json

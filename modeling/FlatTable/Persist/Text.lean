import FlatTable.Element.Codec
import FlatTable.Json.ConfigText
import FlatTable.Persist.Basic

/-!
# The JSON form

A sequence of the pair count, the load factor and the pairs, each a sequence of key and value. The
text does not say beforehand how many elements come.
-/

namespace FlatTable

variable {K V : Type} [JsonCodec K] [JsonCodec V]

def pairText (p : K × V) : String := "[" ++ JsonCodec.write p.1 ++ "," ++ JsonCodec.write p.2 ++ "]"

def Table.dataText (t : Table K V) : String :=
  "[" ++ ",".intercalate (toString t.size :: t.loadFactor.dataText :: t.toList.map pairText) ++ "]"

namespace Json

/-- Pairs up to the end of the sequence, or those before the first that cannot be read. -/
def pairsFrom : (fuel : Nat) → List Char → (reversed : List (K × V)) →
    List (K × V) × Except JsonError (List Char)
  | 0, _, reversed => (reversed.reverse, .error .truncated)
  | fuel + 1, cs, reversed =>
    match (nextItem false).run cs with
    | .error e => (reversed.reverse, .error e)
    | .ok (false, rest) => (reversed.reverse, .ok rest)
    | .ok (true, rest) =>
      match (two JsonCodec.read JsonCodec.read).run rest with
      | .error e => (reversed.reverse, .error e)
      | .ok (p, rest) => pairsFrom fuel rest (p :: reversed)

/-- The pair count and the load factor. -/
def tableHeader : Reader (Nat × LoadFactor) := do
  openSequence .notASequence
  if !(← nextItem true) then fail (.unsuited (.header 0))
  let declared ← natural
  if !(← nextItem false) then fail (.unsuited (.header 1))
  return (declared, ← loadFactor)

/-- A form, as far as it can be read. -/
def tableForm (text : String) : Except JsonError (Form K V JsonError) := do
  let ((declared, lf), rest) ← tableHeader.run text.toList
  match pairsFrom (rest.length + 1) rest [] with
  | (pairs, .error e) => return ⟨declared, lf, pairs, some e, none⟩
  | (pairs, .ok rest) =>
    let trailing := match (do endSequence; endText : Reader Unit).run rest with
      | .error e => some e
      | .ok _ => none
    return ⟨declared, lf, pairs, none, trailing⟩

end Json

/-- Builds a table while its JSON text is read. -/
def Table.ofText [BEq K] (hash : K → UInt64) (text : String) (id : Nat) :
    Except JsonError (Table K V) := do
  (← Json.tableForm text).build (fun e => .unsuited (.refused e)) hash none id

def ofTextEvents [BEq K] (hash : K → UInt64) (text : String) : List Event :=
  match Json.tableForm (K := K) (V := V) text with
  | .error _ => []
  | .ok form => form.events hash none

end FlatTable

import FlatTable.Element.Codec
import FlatTable.Persist.Basic

/-!
# The binary form

The number of elements, which are the pair count, the load factor and the pairs; numbers have a
fixed width and their least significant byte first. What follows the last element is ignored.
-/

namespace FlatTable

variable {K V : Type} [BinaryCodec K] [BinaryCodec V]

def encodePair (p : K × V) : List UInt8 := BinaryCodec.encode p.1 ++ BinaryCodec.encode p.2

def Table.encode (t : Table K V) : List UInt8 :=
  wordBytes (t.size + 2).toUInt64 ++ wordBytes t.size.toUInt64 ++ halfWordBytes t.loadFactor.bits
    ++ t.toList.flatMap encodePair

/-- The bytes of a table, if there is room for them. -/
def Table.encodeInto (t : Table K V) (room : Option Nat) : Except CodecError (List UInt8) :=
  let bytes := t.encode
  if room.any (· < bytes.length) then .error .outOfBytes else .ok bytes

def decodePair : ByteReader (K × V) := do
  let k ← BinaryCodec.decode
  let v ← BinaryCodec.decode
  return (k, v)

/-- So many pairs, or those before the first that cannot be read. -/
def decodePairs : (count : Nat) → List UInt8 → (reversed : List (K × V)) → List (K × V) × Option CodecError
  | 0, _, reversed => (reversed.reverse, none)
  | count + 1, input, reversed =>
    match decodePair.run input with
    | .error e => (reversed.reverse, some e)
    | .ok (p, rest) => decodePairs count rest (p :: reversed)

/-- The header: the number of elements, the pair count and the load factor. -/
def decodeHeader (expected : Expected) : ByteReader (Nat × Nat × LoadFactor) := do
  let elements := (← ByteReader.word).toNat
  if elements = 0 then throw (.header 0 expected)
  let declared := (← ByteReader.word).toNat
  if elements = 1 then throw (.header 1 expected)
  return (elements, declared, ⟨← ByteReader.halfWord⟩)

/-- A form and the number of its elements, as far as it can be read. -/
def decodeForm (expected : Expected) (input : List UInt8) :
    Except CodecError (Nat × Form K V CodecError) := do
  let ((elements, declared, lf), rest) ← (decodeHeader expected).run input
  let (pairs, broken) := decodePairs (elements - 2) rest []
  return (elements, ⟨declared, lf, pairs, broken, none⟩)

/-- The sequence reports the elements to come after the header, which are the pairs. -/
def hintAfterHeader (elements : Nat) : Option Nat := some (elements - 2)

/-- Builds a table while its bytes are read. -/
def Table.decode [BEq K] (hash : K → UInt64) (input : List UInt8) (id : Nat) :
    Except CodecError (Table K V) := do
  let (elements, form) ← decodeForm .parts input
  form.build .refused hash (hintAfterHeader elements) id

def decodeEvents [BEq K] (hash : K → UInt64) (input : List UInt8) : List Event :=
  match decodeForm (K := K) (V := V) .parts input with
  | .error _ => []
  | .ok (elements, form) => form.events hash (hintAfterHeader elements)

/-- What reading a persisted table can fail with. -/
inductive ReadError
  | codec (why : CodecError)
  | table (why : TableError)

/-- Reads all pairs first and then rebuilds the table from its parts. -/
def Table.readFrom [BEq K] (hash : K → UInt64) (input : List UInt8) (id : Nat) :
    Except ReadError (Table K V) := do
  let (_, form) ← (decodeForm .persistedTable input).mapError .codec
  if let some e := form.broken then throw (.codec e)
  if form.pairs.length ≠ form.declared then
    throw (.table (.corruptPersistedForm form.declared form.pairs.length))
  (Table.ofPersisted hash form.declared form.loadFactor form.pairs id).mapError .table

def readFromEvents [BEq K] (hash : K → UInt64) (input : List UInt8) : List Event :=
  match decodeForm (K := K) (V := V) .persistedTable input with
  | .error _ => []
  | .ok (_, form) =>
    if form.broken.isSome then []
    else
      .readForm form.declared form.pairs.length ::
        if form.pairs.length ≠ form.declared then []
        else readyForEvents hash form.declared form.loadFactor form.pairs

end FlatTable

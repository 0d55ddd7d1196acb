import FlatTable.Hash.Streamed
import FlatTable.Json.Value

/-!
# How single values are persisted

The fixed little-endian bytes and the JSON text of keys and values. A byte reader takes what it
needs from the front and leaves the rest, so a short input fails where it ends.
-/

namespace FlatTable

/-- What went wrong in reading bytes. -/
inductive CodecError
  /-- The bytes end early, or there is no room for them. -/
  | outOfBytes
  | invalidText
  /-- A mark that is neither absent nor present. -/
  | invalidMark
  | header (count : Nat) (expected : Expected)
  | refused (why : TableError)

/-- The message of an error about the persisted table as a whole; others have none. -/
def CodecError.message? : CodecError → Option String
  | .header count expected => some s!"codec error: invalid length {count}, expected {expected.text}"
  | .refused why => some s!"codec error: {why.message}"
  | _ => none

/-- Takes a value from the front of the bytes. -/
abbrev ByteReader := StateT (List UInt8) (Except CodecError)

namespace ByteReader

def bytes (n : Nat) : ByteReader (List UInt8) := fun input =>
  let taken := input.take n
  if taken.length < n then .error .outOfBytes else .ok (taken, input.drop n)

def word : ByteReader UInt64 := return wordOfBytes (← bytes 8)

def halfWord : ByteReader UInt32 := return (wordOfBytes (← bytes 4)).toUInt32

/-- Takes text with its length before it. -/
def text : ByteReader String := do
  let n ← word
  let input ← bytes n.toNat
  match String.fromUTF8? ⟨input.toArray⟩ with
  | some s => return s
  | none => throw .invalidText

end ByteReader

def sizedText (s : String) : List UInt8 :=
  let input := textBytes s
  wordBytes input.length.toUInt64 ++ input

class BinaryCodec (α : Type) where
  encode : α → List UInt8
  decode : ByteReader α

class JsonCodec (α : Type) where
  write : α → String
  read : Json.Reader α

instance : BinaryCodec UInt64 := ⟨wordBytes, ByteReader.word⟩

instance : BinaryCodec Int64 := ⟨fun n => wordBytes n.toUInt64, return (← ByteReader.word).toInt64⟩

instance : BinaryCodec Double := ⟨fun x => wordBytes x.bits, return ⟨← ByteReader.word⟩⟩

instance : BinaryCodec String := ⟨sizedText, ByteReader.text⟩

instance : BinaryCodec (Option String) where
  encode
    | none => [0]
    | some s => 1 :: sizedText s
  decode := do
    match ← ByteReader.bytes 1 with
    | [0] => return none
    | [1] => return some (← ByteReader.text)
    | _ => throw .invalidMark

instance : JsonCodec UInt64 := ⟨toString, return (← Json.natural).toUInt64⟩

instance : JsonCodec Int64 := ⟨toString, Json.integer⟩

instance : JsonCodec Double := ⟨Double.dataText, return (← Json.number).toDouble⟩

instance : JsonCodec String := ⟨Text.dataQuoted, Json.text⟩

instance : JsonCodec (Option String) where
  write
    | none => "null"
    | some s => Text.dataQuoted s
  read := Json.optional Json.text

end FlatTable

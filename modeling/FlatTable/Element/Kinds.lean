import FlatTable.Element.Codec
import FlatTable.Table.Content

/-!
# Keys and values

The classes gather what a stored key and a stored value can do. Besides numbers and text there are
two kinds of key whose equality sees less than the key holds, so that it matters which of two equal
keys is kept: text without regard to case, and keys that bring a hash along.
-/

namespace FlatTable

/-- Text compared without regard to the case of ASCII letters. -/
structure CaselessText where
  text : String

/-- A key with a hash that it brings along; only the identity is compared. -/
structure TaggedKey where
  hash : UInt64
  id : UInt64

/-- Values that can be changed by an amount of their own kind. -/
class Bump (α : Type) where
  bump : (value amount : α) → α

class KeyKind (K : Type) extends BEq K, Streamed K, BinaryCodec K, JsonCodec K, Listed K

class ValueKind (V : Type) extends BEq V, Streamed V, BinaryCodec V, JsonCodec V, Listed V, Bump V

instance : Listed UInt64 where listingText := toString
instance : Listed Int64 where listingText := toString
instance : Listed Double where listingText := Double.listingText
instance : Listed String where listingText := Text.listingQuoted

instance : Listed (Option String) where
  listingText
    | none => "None"
    | some s => "Some(" ++ Text.listingQuoted s ++ ")"
  spreadText
    | none => "None"
    | some s => "Some(\n    " ++ Text.listingQuoted s ++ ",\n)"

instance : BEq CaselessText := ⟨fun a b => a.text.toLower == b.text.toLower⟩
instance : Streamed CaselessText := ⟨fun a => Streamed.stream a.text.toLower⟩
instance : BinaryCodec CaselessText := ⟨fun a => sizedText a.text, return ⟨← ByteReader.text⟩⟩
instance : JsonCodec CaselessText := ⟨fun a => Text.dataQuoted a.text, return ⟨← Json.text⟩⟩
instance : Listed CaselessText where listingText a := Text.listingQuoted a.text

instance : BEq TaggedKey := ⟨fun a b => a.id == b.id⟩
instance : Streamed TaggedKey := ⟨fun a => wordBytes a.hash⟩

instance : BinaryCodec TaggedKey where
  encode a := wordBytes a.hash ++ wordBytes a.id
  decode := return ⟨← ByteReader.word, ← ByteReader.word⟩

instance : JsonCodec TaggedKey where
  write a := s!"[{a.hash},{a.id}]"
  read := do
    let (hash, id) ← Json.two Json.natural Json.natural
    return ⟨hash.toUInt64, id.toUInt64⟩

instance : Listed TaggedKey where listingText a := s!"{a.hash}#{a.id}"

/-- Numbers are added, wrapping around. -/
instance : Bump Int64 := ⟨fun v x => v + x⟩

instance : Bump String := ⟨fun v x => v ++ x⟩

/-- A floating-point value is replaced. -/
instance : Bump Double := ⟨fun _ x => x⟩

instance : KeyKind UInt64 where
instance : KeyKind String where
instance : KeyKind (Option String) where
instance : KeyKind CaselessText where
instance : KeyKind TaggedKey where

instance : ValueKind Int64 where
instance : ValueKind String where
instance : ValueKind Double where

end FlatTable

import FlatTable.Numeric.Double

/-!
# Byte streams

What a value feeds to a hasher. Equal keys should feed equal streams; a table whose keys break that
rule keeps equal keys apart unless their spread hashes agree.
-/

namespace FlatTable

/-- The eight bytes of a word, the least significant first. -/
def wordBytes (w : UInt64) : List UInt8 :=
  (List.range 8).map fun i => (w >>> (8 * i).toUInt64).toUInt8

/-- The four bytes of a 32-bit word, the least significant first. -/
def halfWordBytes (w : UInt32) : List UInt8 :=
  (List.range 4).map fun i => (w >>> (8 * i).toUInt32).toUInt8

/-- The word of bytes, the least significant first. -/
def wordOfBytes (bytes : List UInt8) : UInt64 :=
  bytes.foldr (fun b w => (w <<< 8) ||| b.toUInt64) 0

/-- Values that feed a byte stream to a hasher. -/
class Streamed (α : Type) where
  stream : α → List UInt8

instance : Streamed UInt64 := ⟨wordBytes⟩

instance : Streamed Int64 := ⟨fun n => wordBytes n.toUInt64⟩

instance : Streamed Double := ⟨fun x => wordBytes x.bits⟩

def textBytes (s : String) : List UInt8 := s.toUTF8.data.toList

/-- Text feeds its bytes and a byte that no text contains. -/
instance : Streamed String := ⟨fun s => textBytes s ++ [0xff]⟩

/-- Optional text feeds whether it is there, then itself. -/
instance : Streamed (Option String) where
  stream
    | none => wordBytes 0
    | some s => wordBytes 1 ++ Streamed.stream s

end FlatTable

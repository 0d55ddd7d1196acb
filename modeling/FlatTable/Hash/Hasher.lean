import FlatTable.Hash.SipHash

/-!
# Hashers

The hash functions a table can be given. All but the last two are weak on purpose: they make chosen
keys collide.
-/

namespace FlatTable

/-- A named 64-bit hash of a byte stream. -/
inductive Hasher
  /-- The last eight bytes; a number hashes to itself. -/
  | identity
  /-- The low half of the identity, moved to the high half. -/
  | high
  /-- The identity modulo four. -/
  | modFour
  | constant
  | sum
  | fnv
  /-- SipHash-1-3 under the zero key. -/
  | sip
deriving DecidableEq

namespace Hasher

/-- Shifts a byte in at the top. -/
def shiftIn (s : UInt64) (b : UInt8) : UInt64 :=
  let top : UInt64 := b.toUInt64 <<< 56
  (s >>> 8) ||| top

def identityHash (bytes : List UInt8) : UInt64 := bytes.foldl shiftIn 0

def hash : Hasher → List UInt8 → UInt64
  | identity, bytes => identityHash bytes
  | high, bytes => identityHash bytes <<< 32
  | modFour, bytes => identityHash bytes % 4
  | constant, _ => 0
  | sum, bytes => bytes.foldl (fun s b => s + b.toUInt64) (0 : UInt64)
  | fnv, bytes => bytes.foldl (fun s b => (s ^^^ b.toUInt64) * 0x100000001b3) (0xcbf29ce484222325 : UInt64)
  | sip, bytes => SipHash.hash bytes

/-- The hash function on values that feed byte streams. -/
def on {α : Type} [Streamed α] (h : Hasher) (a : α) : UInt64 := h.hash (Streamed.stream a)

end Hasher

/-- The seven leading bits of a hash, which an ordinary map compares before it compares keys. -/
def hashTag (h : UInt64) : UInt64 := h >>> 57

/-- The hash that does not depend on the table, used to compare contents. -/
def contentHash {α : Type} [Streamed α] (a : α) : UInt64 := SipHash.hash (Streamed.stream a)

end FlatTable

import FlatTable.Hash.Streamed

/-!
# SipHash-1-3

A keyed hash of a byte stream: one mixing round after each word of eight bytes and three at the end.
Both key halves are zero here.
-/

namespace FlatTable.SipHash

/-- The four words that the rounds mix. -/
structure State where
  a : UInt64
  b : UInt64
  c : UInt64
  d : UInt64

/-- The bits of a word moved up by `n`, those that fall off coming back below. -/
def rotate (w : UInt64) (n : UInt64) : UInt64 := (w <<< n) ||| (w >>> (64 - n))

/-- The state before any input under the zero key. -/
def start : State :=
  ⟨0x736f6d6570736575, 0x646f72616e646f6d, 0x6c7967656e657261, 0x7465646279746573⟩

def round (s : State) : State :=
  let a := s.a + s.b
  let b := rotate s.b 13 ^^^ a
  let a := rotate a 32
  let c := s.c + s.d
  let d := rotate s.d 16 ^^^ c
  let a := a + d
  let d := rotate d 21 ^^^ a
  let c := c + b
  let b := rotate b 17 ^^^ c
  let c := rotate c 32
  ⟨a, b, c, d⟩

def absorb (s : State) (w : UInt64) : State :=
  let s := round { s with d := s.d ^^^ w }
  { s with a := s.a ^^^ w }

/-- The words of a stream of `length` bytes: the last one carries the bytes left over and the length. -/
def words (length : Nat) : List UInt8 → List UInt64
  | b0 :: b1 :: b2 :: b3 :: b4 :: b5 :: b6 :: b7 :: rest =>
    wordOfBytes [b0, b1, b2, b3, b4, b5, b6, b7] :: words length rest
  | rest => [wordOfBytes rest ||| (length.toUInt64 <<< 56)]

def hash (bytes : List UInt8) : UInt64 :=
  let s := (words bytes.length bytes).foldl absorb start
  let s := round (round (round { s with c := s.c ^^^ 0xff }))
  s.a ^^^ s.b ^^^ s.c ^^^ s.d

end FlatTable.SipHash

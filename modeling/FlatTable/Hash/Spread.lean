/-!
# Spreading a hash

A 64-bit hash is folded to 32 bits and its high bits are mixed into the low ones, from which the
slot is chosen. The mixing steps are bijections, so nothing is lost beyond the fold.
-/

namespace FlatTable

/-- The two halves of a hash, combined. -/
def fold (h : UInt64) : UInt32 := (h ^^^ (h >>> 32)).toUInt32

/-- Mixes the upper bits of a word into its lower ones. -/
def mix (w : UInt32) : UInt32 :=
  let w := w ^^^ ((w >>> 20) ^^^ (w >>> 12))
  w ^^^ (w >>> 7) ^^^ (w >>> 4)

/-- The 32 bits of a hash by which keys are placed and compared. -/
def spread (h : UInt64) : UInt32 := mix (fold h)

/-- The slot of a spread hash in an array whose length is a power of two. -/
def slotIndex (h : UInt32) (capacity : Nat) : Nat := h.toNat &&& (capacity - 1)

end FlatTable

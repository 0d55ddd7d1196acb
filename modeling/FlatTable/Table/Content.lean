import FlatTable.Hash.Hasher
import FlatTable.PairMap
import FlatTable.Table.Basic

/-!
# What a table holds, whatever its layout

Content hashes, comparison with an ordinary map, and listings. The content hash sums one number for
each pair, so the order of the traversal does not show in it.
-/

namespace FlatTable

/-- Values that can stand in a listing, on one line or, where they have parts, on several. -/
class Listed (α : Type) where
  listingText : α → String
  spreadText : α → String := listingText

namespace Table

variable {K V : Type}

/-- The wrapping sum over all pairs of the combined hashes of key and value. -/
def contentSum [Streamed K] [Streamed V] (t : Table K V) : UInt64 :=
  t.buckets.foldl (fun sum b => sum + (contentHash b.key ^^^ contentHash b.value)) 0

/-- The hash of the table as a value: that of its content sum. -/
def digest [Streamed K] [Streamed V] (t : Table K V) : UInt64 := contentHash t.contentSum

/-- Whether the table holds the pairs of a map, compared as two tables are. -/
def equalsMap [BEq V] (same : K → K → Bool) (t : Table K V) (m : PairMap K V) : Bool :=
  t.size == m.size && t.buckets.all fun b => (m.find? same b.key).any (·.2 == b.value)

/-- Pairs in ascending order of their keys. -/
def sortPairs [LE K] [DecidableLE K] (pairs : List (K × V)) : List (K × V) :=
  pairs.mergeSort fun p q => decide (p.1 ≤ q.1)

/-- A pair in a listing on one line. -/
def listedPair [Listed K] [Listed V] (p : K × V) : String :=
  Listed.listingText p.1 ++ ": " ++ Listed.listingText p.2

/-- A pair in a listing on several lines, each with the margin of the braces' contents. -/
def spreadPair [Listed K] [Listed V] (p : K × V) : String :=
  let lines := (Listed.spreadText p.1 ++ ": " ++ Listed.spreadText p.2 ++ ",").splitOn "\n"
  String.join (lines.map fun line => "    " ++ line ++ "\n")

/-- The pairs between braces, on one line or on lines of their own. -/
def listing [Listed K] [Listed V] (isSpread : Bool) (t : Table K V) : String :=
  let inner :=
    if !isSpread then ", ".intercalate (t.toList.map listedPair)
    else if t.isEmpty then ""
    else "\n" ++ String.join (t.toList.map spreadPair)
  "\x7b" ++ inner ++ "\x7d"

end Table

end FlatTable

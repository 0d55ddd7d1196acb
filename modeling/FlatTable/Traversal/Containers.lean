import FlatTable.Table.Views
import FlatTable.Traversal.Basic

/-!
# Containers that can be traversed

Arrays, slices of arrays, arrays of a fixed length and ring buffers offer one run of memory when
they are long enough and have it in one piece, and access by index otherwise. Lists, ordered sets
and key sets offer their elements one after the other.
-/

namespace FlatTable.Traversal

variable {α : Type}

/-- The way of a container whose elements lie in one run. -/
def runStrategy (items : Array α) : Strategy α :=
  if directThreshold ≤ items.size then .contiguous items else .indexed items.size (items[·]?)

instance : RandomAccess (Array α) α where
  size := Array.size
  item items i := items[i]?

instance : Enumerable (Array α) α where
  strategy := runStrategy

/-- The part of an array between two indices. -/
structure Slice (α : Type) where
  items : Array α
  start : Nat
  stop : Nat

namespace Slice

def size (s : Slice α) : Nat := min s.stop s.items.size - s.start

/-- The element at an index of the slice. -/
def get? (s : Slice α) (i : Nat) : Option α := if i < s.size then s.items[s.start + i]? else none

end Slice

instance : RandomAccess (Slice α) α where
  size := Slice.size
  item := Slice.get?

instance : Enumerable (Slice α) α where
  strategy s :=
    if directThreshold ≤ s.size then .contiguous (s.items.extract s.start s.stop)
    else .indexed s.size s.get?

instance {n : Nat} : RandomAccess (Vector α n) α where
  size _ := n
  item items i := items[i]?

instance {n : Nat} : Enumerable (Vector α n) α where
  strategy items := runStrategy items.toArray

/-- A double-ended queue in a ring buffer: its elements lie in up to two runs. -/
structure RingBuffer (α : Type) where
  front : Array α
  back : Array α

namespace RingBuffer

def size (q : RingBuffer α) : Nat := q.front.size + q.back.size

/-- The element at an index, counted through both runs. -/
def get? (q : RingBuffer α) (i : Nat) : Option α :=
  if i < q.front.size then q.front[i]? else q.back[i - q.front.size]?

/-- A queue whose first `wrapped` elements lie in a run of their own. -/
def ofList (items : List α) (wrapped : Nat) : RingBuffer α :=
  if (items.take wrapped).isEmpty then ⟨items.toArray, #[]⟩
  else ⟨(items.take wrapped).toArray, (items.drop wrapped).toArray⟩

end RingBuffer

instance : RandomAccess (RingBuffer α) α where
  size := RingBuffer.size
  item := RingBuffer.get?

instance : Enumerable (RingBuffer α) α where
  strategy q :=
    if q.back.isEmpty && decide (directThreshold ≤ q.front.size) then .contiguous q.front
    else .indexed q.size q.get?

instance : Enumerable (List α) α where
  strategy := .cursor

/-- A set whose elements are kept in ascending order. -/
structure OrderedSet (α : Type) where
  items : List α

def OrderedSet.ofList [LE α] [DecidableLE α] (items : List α) : OrderedSet α :=
  let sorted := items.mergeSort fun a b => decide (a ≤ b)
  ⟨sorted.foldr (fun a kept => if kept.head?.any fun b => decide (b ≤ a) then kept else a :: kept) []⟩

instance : Enumerable (OrderedSet α) α where
  strategy s := .cursor s.items

instance {K V : Type} : Enumerable (KeySet K V) K where
  strategy s := .cursor s.table.keys

end FlatTable.Traversal

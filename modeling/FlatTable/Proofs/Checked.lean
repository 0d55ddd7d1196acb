import FlatTable.Proofs.Primitives

/-!
# Operations that take nothing for granted

Chains, slots and tables are changed here once more, with every index looked up, every expected bucket demanded and every difference required to exist; where one of these is missing there is no result. On solid tables nothing is missing, and the results are those of the plain operations. Whether keys are equal has no say in that, so a solid table is one that keeps its layout for keys of which no two are equal.
-/

namespace FlatTable

variable {K V : Type}

namespace Checked

/-- The difference of two numbers, if there is one. -/
def minus (a b : Nat) : Option Nat := if b ≤ a then some (a - b) else none

theorem minus_of_le {a b : Nat} (h : b ≤ a) : minus a b = some (a - b) := if_pos h

/-! ### Chains -/

def push (c : Chain K V) (b : Bucket K V) : Option (Chain K V) :=
  let vacant := c.length
  let cells := if vacant = c.cells.size then (c.cells.push none).push none else c.cells
  if h : vacant < cells.size then some ⟨cells.set vacant (some b)⟩ else none

/-- Takes the bucket out of a cell and moves the last bucket into the cell. -/
def swapRemove (c : Chain K V) (i : Nat) : Option (Bucket K V × Chain K V) := do
  let last ← minus c.length 1
  let cell ← c.cells[i]?
  let removed ← cell
  if i = last then return (removed, ⟨c.cells.setIfInBounds i none⟩)
  else
    let moved ← c.cells[last]?
    return (removed, ⟨(c.cells.setIfInBounds last none).setIfInBounds i moved⟩)

/-- The only bucket of a chain that holds one, from the first cell. -/
def single (c : Chain K V) : Option (Option (Bucket K V)) := if c.length = 1 then c.cells[0]? else some none

theorem push_eq (c : Chain K V) (b : Bucket K V) : push c b = some (c.push b) := by
  have hle : c.length ≤ c.cells.size := Array.findIdx_le_size
  have hlt : c.length < (if c.length = c.cells.size then (c.cells.push none).push none else c.cells).size := by
    split
    · rw [Array.size_push, Array.size_push]
      omega
    · omega
  rw [push, dif_pos hlt, Chain.push, Array.setIfInBounds, dif_pos hlt]

theorem getElem?_of_get? {c : Chain K V} {i : Nat} {b : Bucket K V} (hb : c.get? i = some b) :
    c.cells[i]? = some (some b) := Option.join_eq_some_iff.mp hb

theorem swapRemove_eq {c : Chain K V} (h : c.Compact) {i : Nat} {b : Bucket K V} (hb : c.get? i = some b) :
    swapRemove c i = some (b, c.swapRemove i) := by
  have hi : i < c.buckets.length := by
    rw [Chain.get?_eq h] at hb
    exact (List.getElem?_eq_some_iff.mp hb).1
  have hlast : c.length - 1 < c.buckets.length := by
    rw [Chain.length_eq]
    omega
  have hmoved : c.get? (c.length - 1) = some c.buckets[c.length - 1] := by
    rw [Chain.get?_eq h, List.getElem?_eq_getElem hlast]
  have hdiff : minus c.length 1 = some (c.length - 1) := minus_of_le (by rw [Chain.length_eq]; omega)
  simp only [swapRemove, hdiff, getElem?_of_get? hb, getElem?_of_get? hmoved, Option.bind_eq_bind, Option.bind_some,
    Chain.swapRemove, hmoved]
  split <;> rfl

theorem single_eq {c : Chain K V} (h : c.Compact) : single c = some c.single? := by
  rw [single, Chain.single?]
  split
  · rename_i hone
    rw [Chain.length_eq] at hone
    have hfirst : c.get? 0 = some c.buckets[0] := by rw [Chain.get?_eq h, List.getElem?_eq_getElem]
    rw [hfirst, getElem?_of_get? hfirst]
  · rfl

/-! ### Slots -/

def add (b : Bucket K V) : Slot K V → Option (Slot K V)
  | .empty => some (.pair b)
  | .pair first => (push (.ofBucket first) b).map .chained
  | .chained c => (push c b).map .chained

/-- Takes the bucket out of a cell of a slot that holds a chain. -/
def removeCell (i : Nat) : Slot K V → Option (Bucket K V × Slot K V)
  | .chained c => do
    let (removed, c) ← swapRemove c i
    match c.length with
    | 0 => return (removed, .empty)
    | 1 =>
      match ← single c with
      | some b => return (removed, .pair b)
      | none => return (removed, .chained c)
    | _ => return (removed, .chained c)
  | _ => none

/-- Takes out the bucket at a location whose form the slot must have. -/
def takeOut : Location → Slot K V → Option (Bucket K V × Slot K V)
  | .primary _, .pair b => some (b, .empty)
  | .primary _, _ => none
  | .chained _ i, s => removeCell i s

theorem add_eq (b : Bucket K V) (s : Slot K V) : add b s = some (s.add b) := by
  cases s with
  | empty => rfl
  | pair first => rw [add, push_eq]; rfl
  | chained c => rw [add, push_eq]; rfl

theorem takeOut_eq {s : Slot K V} (h : s.WellFormed) {loc : Location} {b : Bucket K V}
    (hb : s.bucketAt? loc = some b) : takeOut loc s = some (b, s.remove loc) := by
  obtain ⟨i, rfl, rfl⟩ | ⟨i, j, c, rfl, rfl, hj⟩ := Slot.shape_of_bucketAt? hb
  · rfl
  · have hcompact : (c.swapRemove j).Compact := by
      refine Chain.compact_swapRemove h.1 ?_
      rw [Chain.get?_eq h.1] at hj
      exact (List.getElem?_eq_some_iff.mp hj).1
    have hsingle := single_eq hcompact
    simp only [takeOut, removeCell, swapRemove_eq h.1 hj, Option.bind_eq_bind, Option.bind_some, Slot.remove,
      Slot.ofChain]
    generalize c.swapRemove j = left at hsingle
    split
    · rename_i hzero
      rw [if_pos hzero]
      rfl
    · rename_i hone
      rw [hsingle, if_neg (by omega), Option.bind_some]
      cases left.single? <;> rfl
    · rename_i hzero hone
      rw [if_neg hzero, Chain.single?, if_neg hone]
      rfl

/-! ### Tables -/

/-- The slot that a hash selects, with its index. -/
def slotFor (slots : Array (Slot K V)) (hash : UInt32) : Option (Nat × Slot K V) := do
  let mask ← minus slots.size 1
  let i := hash.toNat &&& mask
  let s ← slots[i]?
  return (i, s)

def place (slots : Array (Slot K V)) (b : Bucket K V) : Option (Array (Slot K V) × Location) := do
  let (i, s) ← slotFor slots b.hash
  let loc := s.vacancy i
  let s ← add b s
  return (slots.setIfInBounds i s, loc)

def maxSize (lf : LoadFactor) (capacity : Nat) : Option Nat := do
  let most ← minus capacity 1
  return min (capacity * lf.steps / twoPow FloatFormat.single.scale) most

/-- An empty table of a configuration that is known to be valid. -/
def build (hash : K → UInt64) (config : Config) (id : Nat) : Option (Table K V) := do
  let most ← maxSize config.loadFactor config.slotCapacity
  return ⟨hash, emptySlots config.slotCapacity, 0, config.loadFactor, most, id, 0⟩

/-- Places a bucket and counts it. -/
def placeNext (r : Array (Slot K V) × Nat) (b : Bucket K V) : Option (Array (Slot K V) × Nat) := do
  let (slots, _) ← place r.1 b
  return (slots, r.2 + 1)

/-- The buckets placed anew are as many as the table counts. -/
def grow (t : Table K V) : Option (Table K V) :=
  if maxCapacity ≤ t.slots.size then some { t with maxSize := wordLimit - 1 }
  else do
    let capacity := 2 * t.slots.size
    let (slots, placed) ← t.slots.toList.foldlM (fun r s => s.buckets.foldlM placeNext r) (emptySlots capacity, 0)
    let most ← maxSize t.loadFactor capacity
    if placed = t.size then return { t with slots := slots, size := placed, maxSize := most } else none

def addNew (t : Table K V) (hash : UInt32) (k : K) (v : V) : Option (Table K V × Location) := do
  let (slots, loc) ← place t.slots ⟨hash, k, v⟩
  return ({ t with slots := slots, size := t.size + 1 }, loc)

/-- Takes out the bucket at a location, which must be there. -/
def removeAt (t : Table K V) (loc : Location) : Option (Bucket K V × Table K V) := do
  let s ← t.slots[loc.slot]?
  let (b, s) ← takeOut loc s
  let size ← minus t.size 1
  return (b, { t with slots := t.slots.setIfInBounds loc.slot s, size := size })

theorem slotFor_eq {slots : Array (Slot K V)} (hpos : 0 < slots.size) (hash : UInt32) :
    slotFor slots hash = some (slotIndex hash slots.size, slots.getD (slotIndex hash slots.size) .empty) := by
  have hi : slotIndex hash slots.size < slots.size := slotIndex_lt hpos
  have hs : slots[hash.toNat &&& (slots.size - 1)]? = some (slots.getD (slotIndex hash slots.size) .empty) := by
    rw [Array.getD_eq_getD_getElem?, Array.getElem?_eq_getElem hi]
    exact Array.getElem?_eq_getElem hi
  simp only [slotFor, minus_of_le hpos, Option.bind_eq_bind, Option.bind_some, hs]
  rfl

theorem modify_eq_set {α : Type} {cells : Array α} {i : Nat} {a : α} (ha : cells[i]? = some a) (f : α → α) :
    cells.modify i f = cells.setIfInBounds i (f a) := by
  apply Array.ext_getElem?
  intro j
  rw [Array.getElem?_modify, Array.getElem?_setIfInBounds]
  by_cases hij : i = j
  · rw [if_pos hij, if_pos hij, ← hij, ha, if_pos (Array.getElem?_eq_some_iff.mp ha).1]
    rfl
  · rw [if_neg hij, if_neg hij]

theorem place_eq {slots : Array (Slot K V)} (hpos : 0 < slots.size) (b : Bucket K V) :
    place slots b = some (FlatTable.place slots b) := by
  have hi : slotIndex b.hash slots.size < slots.size := slotIndex_lt hpos
  have hs : slots[slotIndex b.hash slots.size]? = some (slots.getD (slotIndex b.hash slots.size) .empty) := by
    rw [Array.getD_eq_getD_getElem?, Array.getElem?_eq_getElem hi]
    rfl
  simp only [place, slotFor_eq hpos, Option.bind_eq_bind, Option.bind_some, add_eq]
  rw [FlatTable.place, modify_eq_set hs]
  rfl

theorem maxSize_eq (lf : LoadFactor) {capacity : Nat} (hpos : 0 < capacity) :
    maxSize lf capacity = some (lf.maxSize capacity) := by
  rw [maxSize, minus_of_le hpos]
  rfl

theorem build_eq (hash : K → UInt64) (config : Config) (id : Nat) :
    build hash config id = some (Table.build hash config id : Table K V) := by
  have hpos : 0 < config.slotCapacity := by
    have hslots := (Table.solid_build (V := V) hash config id).capacity_pos
    rwa [Table.build, size_emptySlots] at hslots
  rw [build, maxSize_eq _ hpos]
  rfl

theorem placeAll_eq {slots : Array (Slot K V)} (hpos : 0 < slots.size) (n : Nat) (bs : List (Bucket K V)) :
    bs.foldlM placeNext (slots, n) = some (placeAll slots bs, n + bs.length) := by
  induction bs generalizing slots n with
  | nil => rfl
  | cons b bs ih =>
    have hnext : placeNext (slots, n) b = some ((FlatTable.place slots b).1, n + 1) := by
      rw [placeNext, place_eq hpos]
      rfl
    rw [List.foldlM_cons, hnext, Option.bind_eq_bind, Option.bind_some, ih (by rwa [size_place]), List.length_cons,
      Nat.add_assoc, Nat.add_comm 1]
    rfl

theorem replaceAll_eq {slots : Array (Slot K V)} (hpos : 0 < slots.size) (n : Nat) (old : List (Slot K V)) :
    old.foldlM (fun r s => s.buckets.foldlM placeNext r) (slots, n) =
      some (placeAll slots (old.flatMap Slot.buckets), n + (old.flatMap Slot.buckets).length) := by
  induction old generalizing slots n with
  | nil => rfl
  | cons s old ih =>
    rw [List.foldlM_cons, placeAll_eq hpos, Option.bind_eq_bind, Option.bind_some, ih (by rwa [size_placeAll]),
      List.flatMap_cons, List.length_append, Nat.add_assoc, placeAll, placeAll, placeAll, List.foldl_append]

theorem grow_eq {t : Table K V} (h : t.Solid) : grow t = some t.grow := by
  rw [grow]
  rcases Nat.lt_or_ge t.slots.size maxCapacity with hsmall | hlarge
  · have hpos : 0 < 2 * t.slots.size := by
      have := h.capacity_pos
      omega
    have hplaced : t.slots.toList.foldlM (fun r s => s.buckets.foldlM placeNext r) (emptySlots (2 * t.slots.size), 0) =
        some (t.grow.slots, t.size) := by
      rw [replaceAll_eq (by rwa [size_emptySlots]), Table.slots_grow hsmall, h.size_eq, Nat.zero_add]
      rfl
    simp only [if_neg (Nat.not_le.mpr hsmall), hplaced, maxSize_eq _ hpos, Option.bind_eq_bind, Option.bind_some,
      if_true]
    rw [Table.grow, if_neg (Nat.not_le.mpr hsmall)]
    rfl
  · rw [if_pos hlarge, Table.grow, if_pos hlarge]

theorem addNew_eq {t : Table K V} (hpos : 0 < t.slots.size) (hash : UInt32) (k : K) (v : V) :
    addNew t hash k v = some (t.addNew hash k v) := by
  rw [addNew, place_eq hpos]
  rfl

theorem bucketAt?_addNew {t : Table K V} (h : t.Solid) (hash : UInt32) (k : K) (v : V) :
    (t.addNew hash k v).1.bucketAt? (t.addNew hash k v).2 = some ⟨hash, k, v⟩ :=
  bucketAt?_place h.wellFormed h.capacity_pos _

theorem removeAt_eq {t : Table K V} (h : t.Solid) {loc : Location} {b : Bucket K V} (hb : t.bucketAt? loc = some b) :
    removeAt t loc = some (b, t.dropAt loc) := by
  obtain ⟨s, hs, hat⟩ := Option.bind_eq_some_iff.mp hb
  have hsize : 1 ≤ t.size := by
    have hperm := Table.buckets_dropAt_perm h.wellFormed hb
    rw [h.size_eq, ← hperm.length_eq, List.length_cons]
    omega
  simp only [removeAt, hs, takeOut_eq (h.wellFormed.of_getElem? hs) hat, minus_of_le hsize, Option.bind_eq_bind,
    Option.bind_some]
  rw [Table.dropAt, modify_eq_set hs]
  rfl

/-! ### Keys -/

section Keys

variable [BEq K]

def locate (t : Table K V) (k : K) : Option (Option Location) := do
  let (i, s) ← slotFor t.slots (t.spreadHash k)
  return s.locate? i (t.spreadHash k) k

def getEntry (t : Table K V) (k : K) : Option (Option (K × V)) := do
  match ← locate t k with
  | none => return none
  | some loc =>
    let b ← t.bucketAt? loc
    return some b.toPair

def modify (t : Table K V) (k : K) (f : V → V) : Option (Option V × Table K V) := do
  match ← locate t k with
  | none => return (none, t)
  | some loc =>
    let b ← t.bucketAt? loc
    return (some (f b.value), t.modifyValueAt loc f)

def insert (t : Table K V) (k : K) (v : V) : Option (Option V × Table K V) := do
  match ← locate t k with
  | some loc =>
    let b ← t.bucketAt? loc
    return (some b.value, t.modifyValueAt loc fun _ => v)
  | none =>
    let (t, _) ← addNew t (t.spreadHash k) k v
    if t.maxSize < t.size then
      let t ← grow t
      return (none, t)
    else return (none, t)

def extend (t : Table K V) (pairs : List (K × V)) : Option (Table K V) :=
  pairs.foldlM (fun t p => (insert t p.1 p.2).map Prod.snd) t

def makeReady (t : Table K V) : Option (Table K V) := if t.maxSize < t.size + 1 then grow t else some t

/-- The location of a pair just stored must have a bucket, too. -/
def getOrInsert (t : Table K V) (k : K) (default : Option V) : Option (Table.Obtained × Table K V) := do
  match ← locate t k with
  | some loc =>
    let _ ← t.bucketAt? loc
    return (.found loc, t)
  | none =>
    let t ← makeReady t
    default.elim (some (.aborted, t)) fun v => do
      let (t, loc) ← addNew t (t.spreadHash k) k v
      let _ ← t.bucketAt? loc
      return (.inserted loc, t)

def removeEntry (t : Table K V) (k : K) : Option (Option (K × V) × Table K V) := do
  match ← locate t k with
  | none => return (none, t)
  | some loc =>
    let (b, t) ← removeAt t loc
    return (some b.toPair, t)

variable {t : Table K V} (h : t.Solid) (k : K)
include h

theorem exists_bucket_of_locate? {loc : Location} (hloc : t.locate? k = some loc) : ∃ b, t.bucketAt? loc = some b := by
  obtain ⟨s, hs, hin⟩ := Option.bind_eq_some_iff.mp hloc
  obtain ⟨hslot, b, hb, -⟩ := Slot.bucketAt?_of_locate? (h.wellFormed.of_getElem? hs) hin
  refine ⟨b, ?_⟩
  rw [Table.bucketAt?, FlatTable.bucketAt?, hslot, hs]
  exact hb

theorem locate_eq : locate t k = some (t.locate? k) := by
  have hi : slotIndex (t.spreadHash k) t.slots.size < t.slots.size := slotIndex_lt h.capacity_pos
  simp only [locate, slotFor_eq h.capacity_pos, Option.bind_eq_bind, Option.bind_some]
  rw [Table.locate?, Array.getD_eq_getD_getElem?, Array.getElem?_eq_getElem hi]
  rfl

theorem getEntry_eq : getEntry t k = some (t.getEntry? k) := by
  rw [getEntry, locate_eq h, Table.getEntry?, Option.bind_eq_bind, Option.bind_some]
  rcases hloc : t.locate? k with - | loc
  · rfl
  · obtain ⟨b, hb⟩ := exists_bucket_of_locate? h k hloc
    dsimp only
    rw [Option.bind_some, hb]
    rfl

theorem modify_eq (f : V → V) : modify t k f = some (t.modify k f) := by
  rw [modify, locate_eq h, Table.modify, Option.bind_eq_bind, Option.bind_some]
  rcases hloc : t.locate? k with - | loc
  · rfl
  · obtain ⟨b, hb⟩ := exists_bucket_of_locate? h k hloc
    dsimp only
    rw [hb]
    rfl

theorem insert_eq (v : V) : insert t k v = some (t.insert k v) := by
  rw [insert, locate_eq h, Option.bind_eq_bind, Option.bind_some]
  rcases hloc : t.locate? k with - | loc
  · have hadded : (t.addNew (t.spreadHash k) k v).1.Solid := Table.stable_solid.add t k v h
    rw [Table.insert_of_locate?_eq_none hloc, Table.settled]
    simp only [addNew_eq h.capacity_pos, grow_eq hadded, Option.bind_eq_bind, Option.bind_some]
    split <;> rfl
  · obtain ⟨b, hb⟩ := exists_bucket_of_locate? h k hloc
    rw [Table.insert_of_locate?_eq_some hloc]
    dsimp only
    rw [hb]
    rfl

omit k in
theorem extend_eq (pairs : List (K × V)) : extend t pairs = some (t.extend pairs) := by
  induction pairs generalizing t with
  | nil => rfl
  | cons p pairs ih =>
    rw [extend, List.foldlM_cons, insert_eq h, Option.map_some, Option.bind_eq_bind, Option.bind_some]
    exact ih (Table.stable_solid.insert p.1 p.2 h)

theorem getOrInsert_eq (default : Option V) : getOrInsert t k default = some (t.getOrInsert k default) := by
  rw [getOrInsert, locate_eq h, Option.bind_eq_bind, Option.bind_some]
  rcases hloc : t.locate? k with - | loc
  · have hready : makeReady t = some t.madeReady := by
      rw [makeReady, Table.madeReady, grow_eq h]
      split <;> rfl
    have hsolid := Table.stable_solid.madeReady h
    rw [Table.getOrInsert_of_locate?_eq_none hloc]
    dsimp only
    rw [hready, Option.bind_eq_bind, Option.bind_some]
    cases default with
    | none => rfl
    | some v =>
      rw [Option.elim_some, addNew_eq hsolid.capacity_pos, Option.bind_eq_bind, Option.bind_some,
        bucketAt?_addNew hsolid]
      rfl
  · obtain ⟨b, hb⟩ := exists_bucket_of_locate? h k hloc
    rw [Table.getOrInsert, hloc]
    dsimp only
    rw [hb]
    rfl

theorem removeEntry_eq : removeEntry t k = some (t.removeEntry k) := by
  rw [removeEntry, locate_eq h, Table.removeEntry, Option.bind_eq_bind, Option.bind_some]
  rcases hloc : t.locate? k with - | loc
  · rfl
  · obtain ⟨b, hb⟩ := exists_bucket_of_locate? h k hloc
    dsimp only
    rw [removeAt_eq h hb, Table.removeAt?_of_bucketAt? hb]
    rfl

end Keys

end Checked

end FlatTable

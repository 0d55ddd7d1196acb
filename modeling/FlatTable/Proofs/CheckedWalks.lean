import FlatTable.Proofs.Checked
import FlatTable.Proofs.Sections
import FlatTable.Proofs.Traversals
import FlatTable.Proofs.ViewRemovals

/-!
# Walks that take nothing for granted

A cursor stays valid however it is moved, also over tables of which only the layout without the keys' equality is known. Therefore it can be moved with every place looked up and every bucket demanded, and so can the filters and removals that move it, the sections of a table, and a fold whose accumulator is taken out for each call and put back.
-/

namespace FlatTable

variable {K V σ : Type}

namespace Cursor

/-! ### Valid along a walk -/

section Valid

variable [BEq K] {c : Cursor K V}

theorem valid_next (h : c.Valid) : c.next.2.Valid := by
  rcases hunseen : c.unseen with - | ⟨b, rest⟩
  · rw [next_of_nil h hunseen]
    exact h
  · obtain ⟨c', loc, hnext, hvalid, -⟩ := next_of_cons h hunseen
    rw [hnext]
    exact hvalid

theorem valid_modifyLast (h : c.Valid) (f : V → V) : (c.modifyLast f).Valid := by
  rcases hlast : c.last with - | loc
  · rw [modifyLast, hlast]
    exact h
  · obtain ⟨-, b, hb⟩ := h.last_after loc hlast
    obtain ⟨s, -, -, -, -, -, hvalid⟩ := modifyLast_of_last h hlast hb f
    exact hvalid

theorem valid_remove [PartialEquivBEq K] (h : c.Valid) : c.remove.2.Valid := by
  rcases hlast : c.last with - | loc
  · rw [remove_of_none hlast]
    exact h
  · obtain ⟨-, b, hb⟩ := h.last_after loc hlast
    obtain ⟨s, c', -, hremove, -, -, -, -, hvalid⟩ := remove_of_last h hlast hb
    rw [hremove]
    exact hvalid

theorem valid_walk [PartialEquivBEq K] {t : Table K V} (ht : t.LayoutInvariant) (h : c.Walk t) : c.Valid := by
  induction h with
  | start => exact valid_start ht
  | next _ ih => exact valid_next ih
  | write _ f ih => exact valid_modifyLast ih f
  | remove _ ih => exact valid_remove ih

end Valid

/-- A valid cursor over a table of which only the layout without the keys' equality is known. -/
def Solid (c : Cursor K V) : Prop := @Valid K V (Table.neverEqual K) c

namespace Solid

variable {c : Cursor K V} (h : c.Solid)
include h

theorem table : c.table.Solid := @Valid.layout K V (Table.neverEqual K) c h

theorem size_eq : c.table.size = c.visited + c.unseen.length := @Cursor.size_eq K V (Table.neverEqual K) c h

theorem exists_bucket {loc : Location} (hlast : c.last = some loc) : ∃ b, c.table.bucketAt? loc = some b :=
  (@Valid.last_after K V (Table.neverEqual K) c h loc hlast).2

theorem visited_pos {loc : Location} (hlast : c.last = some loc) : 0 < c.visited := by
  let := Table.neverEqual K
  have := Table.partialEquiv_neverEqual (K := K)
  obtain ⟨b, hb⟩ := h.exists_bucket hlast
  obtain ⟨s, -, hseen, -⟩ := remove_of_last h hlast hb
  rw [Valid.visited_eq h, hseen, List.length_append, List.length_singleton]
  omega

theorem next : c.next.2.Solid := @valid_next K V (Table.neverEqual K) c h

theorem modifyLast (f : V → V) : (c.modifyLast f).Solid := @valid_modifyLast K V (Table.neverEqual K) c h f

theorem remove : c.remove.2.Solid :=
  @valid_remove K V (Table.neverEqual K) c Table.partialEquiv_neverEqual h

end Solid

theorem solid_start {t : Table K V} (ht : t.Solid) : (start t).Solid := @valid_start K V (Table.neverEqual K) t ht

theorem solid_walk {t : Table K V} {c : Cursor K V} (ht : t.Solid) (h : c.Walk t) : c.Solid :=
  @valid_walk K V (Table.neverEqual K) c Table.partialEquiv_neverEqual t ht h

end Cursor

namespace Checked

/-! ### Cursors -/

def remaining (c : Cursor K V) : Option Nat := minus c.table.size c.visited

/-- The search for the next pair must end inside the slot array, at a bucket. -/
def next (c : Cursor K V) : Option (Except TableError (K × V) × Cursor K V) :=
  if !c.hasNext then some (.error .exhausted, c)
  else do
    let (loc, position, cell) ← seek c.table.slots c.position c.cell
    let b ← c.table.bucketAt? loc
    return (.ok b.toPair, { c with visited := c.visited + 1, position := position, cell := cell, last := some loc })

def modifyLast (c : Cursor K V) (f : V → V) : Option (Cursor K V) :=
  match c.last with
  | none => some c
  | some loc => do
    let _ ← c.table.bucketAt? loc
    return { c with table := c.table.modifyValueAt loc f }

def resume (slots : Array (Slot K V)) : Location → (position cell : Nat) → Option (Nat × Nat)
  | .primary _, position, cell => some (position, cell)
  | .chained s i, _, _ => do
    match ← slots[s]? with
    | .chained _ => return (s, i)
    | .pair _ => return if i = 0 then (s, 0) else (s + 1, 0)
    | .empty => return (s + 1, 0)

def remove (c : Cursor K V) : Option (Except TableError (K × V) × Cursor K V) :=
  match c with
  | ⟨t, visited, position, cell, none⟩ => some (.error .invalidCursorState, ⟨t, visited, position, cell, none⟩)
  | ⟨t, visited, position, cell, some loc⟩ => do
    let (b, t) ← removeAt t loc
    let visited ← minus visited 1
    let (position, cell) ← resume t.slots loc position cell
    return (.ok b.toPair, ⟨t, visited, position, cell, none⟩)

section Cursors

variable {c : Cursor K V} (h : c.Solid)
include h

theorem remaining_eq : remaining c = some c.remaining := by
  refine minus_of_le ?_
  rw [h.size_eq]
  exact Nat.le_add_right c.visited _

theorem next_eq : next c = some c.next := by
  let := Table.neverEqual K
  rw [next, Cursor.next]
  cases hmore : c.hasNext with
  | false => rfl
  | true =>
    have hsize := h.size_eq
    rw [Cursor.hasNext, decide_eq_true_iff] at hmore
    obtain ⟨b, rest, hunseen⟩ := List.exists_cons_of_length_pos (l := c.unseen) (by omega)
    obtain ⟨loc, hseek, hat, -⟩ := seek_of_cons h.table.wellFormed (Cursor.Valid.isPlace h) hunseen
    have hb : c.table.bucketAt? loc = some b := hat
    simp only [Bool.not_true, Bool.false_eq_true, if_false, hseek, hb, Option.bind_eq_bind, Option.bind_some]
    rfl

theorem modifyLast_eq (f : V → V) : modifyLast c f = some (c.modifyLast f) := by
  rw [modifyLast, Cursor.modifyLast]
  cases hlast : c.last with
  | none => rfl
  | some loc =>
    obtain ⟨b, hb⟩ := h.exists_bucket hlast
    dsimp only
    rw [hb]
    rfl

omit h in
theorem resume_eq {slots : Array (Slot K V)} {loc : Location} (hslot : loc.slot < slots.size) (position cell : Nat) :
    resume slots loc position cell = some (Cursor.resume slots loc position cell) := by
  cases loc with
  | primary i => rfl
  | chained i j =>
    have hi : slots[i]? = some slots[i] := Array.getElem?_eq_getElem hslot
    rw [resume, Cursor.resume, hi, Option.bind_eq_bind, Option.bind_some]
    cases slots[i] <;> rfl

theorem remove_eq : remove c = some c.remove := by
  obtain ⟨t, visited, position, cell, last⟩ := c
  cases last with
  | none => rfl
  | some loc =>
    obtain ⟨b, hb⟩ := h.exists_bucket rfl
    have hvisited : 1 ≤ visited := h.visited_pos rfl
    have hslot : loc.slot < (t.dropAt loc).slots.size := by
      obtain ⟨s, hs, -⟩ := Option.bind_eq_some_iff.mp hb
      obtain ⟨hlt, -⟩ := Array.getElem?_eq_some_iff.mp hs
      rwa [Table.dropAt, Array.size_modify]
    have hremoved : removeAt t loc = some (b, t.dropAt loc) := removeAt_eq h.table hb
    have hplain : t.removeAt? loc = (some b, t.dropAt loc) := Table.removeAt?_of_bucketAt? hb
    simp only [remove, Cursor.remove, hremoved, hplain, minus_of_le hvisited, resume_eq hslot, Option.bind_eq_bind,
      Option.bind_some]
    rfl

end Cursors

/-! ### Filters and removals by value -/

/-- The calls of a cursor with every place looked up and every bucket demanded. -/
def calls : Cursor.Calls K V where
  next := next
  modifyLast := modifyLast
  remove := remove

def retain (t : Table K V) (f : Callback σ K V) (s : σ) : Option (Walked σ × Table K V) := calls.retainAll t f s

def removeValue [BEq V] (t : Table K V) (v : V) : Option (Except TableError Bool × Table K V) :=
  calls.removeFirst v (t.size + 1) (.start t)

/-- The pairs removed are counted by the sizes before and after. -/
def removeValues [BEq V] (t : Table K V) (vs : List V) : Option (Except TableError Nat × Table K V) := do
  let (_, u) ← retain t (fun (_ : Unit) _ v => ((), v, if !vs.any (· == v) then .keep else .remove)) ()
  let removed ← minus t.size u.size
  return (.ok removed, u)

def removePair [BEq K] [BEq V] (t : Table K V) (k : K) (v : V) : Option (Except TableError Bool × Table K V) := do
  let entry ← getEntry t k
  if (entry.map Prod.snd).any (· == v) then
    let (entry, t) ← removeEntry t k
    return (.ok entry.isSome, t)
  else return (.ok false, t)

section Calls

variable {c : Cursor K V} (h : c.Solid)
include h

theorem calls_next : calls.next c = Cursor.Calls.plain.next c := next_eq h

theorem calls_modifyLast (f : V → V) : calls.modifyLast c f = Cursor.Calls.plain.modifyLast c f := modifyLast_eq h f

theorem calls_remove : calls.remove c = Cursor.Calls.plain.remove c := remove_eq h

theorem retain_calls (f : Callback σ K V) (rounds : Nat) (s : σ) :
    calls.retain f rounds s c = Cursor.Calls.plain.retain f rounds s c := by
  induction rounds generalizing s c with
  | zero => rfl
  | succ rounds ih =>
    have hnext := h.next
    rw [Cursor.Calls.retain, Cursor.Calls.retain, calls_next h, Cursor.Calls.plain_next]
    rcases hc : c.next with ⟨e | ⟨k, v⟩, c₁⟩
    · rfl
    · rw [hc] at hnext
      dsimp only
      rcases f s k v with ⟨s', v', verdict⟩
      have hwritten := hnext.modifyLast fun _ => v'
      dsimp only
      rw [calls_modifyLast hnext, Cursor.Calls.plain_modifyLast, Option.bind_some, Option.bind_some]
      cases verdict with
      | keep => exact ih hwritten s'
      | remove =>
        have hremoved := hwritten.remove
        dsimp only
        rw [calls_remove hwritten, Cursor.Calls.plain_remove]
        rcases hc₁ : (c₁.modifyLast fun _ => v').remove with ⟨e | p, c₂⟩
        · rfl
        · rw [hc₁] at hremoved
          exact ih hremoved s'
      | abort => rfl

theorem removeFirst_calls [BEq V] (v : V) (rounds : Nat) :
    calls.removeFirst v rounds c = Cursor.Calls.plain.removeFirst v rounds c := by
  induction rounds generalizing c with
  | zero => rfl
  | succ rounds ih =>
    have hnext := h.next
    rw [Cursor.Calls.removeFirst, Cursor.Calls.removeFirst, calls_next h, Cursor.Calls.plain_next]
    rcases hc : c.next with ⟨e | ⟨k, x⟩, c₁⟩
    · rfl
    · rw [hc] at hnext
      dsimp only
      rw [calls_remove hnext, ih hnext]

end Calls

section Tables

variable {t : Table K V} (h : t.Solid)
include h

theorem unseen_start_le : (Cursor.start t).unseen.length ≤ t.size := by
  rw [Cursor.unseen_start]
  exact Nat.le_of_eq h.size_eq.symm

theorem retain_eq (f : Callback σ K V) (s : σ) : retain t f s = some (t.retain f s) := by
  let := Table.neverEqual K
  have := Table.partialEquiv_neverEqual (K := K)
  rw [retain, Cursor.Calls.retainAll, retain_calls (Cursor.solid_start h),
    Cursor.Calls.retain_plain f t.size s (Cursor.valid_start h) (unseen_start_le h)]
  rfl

theorem removeValue_eq [BEq V] (v : V) : removeValue t v = some ((ValuesView.mk ⟨.exclusive, t⟩).remove v) := by
  let := Table.neverEqual K
  have := Table.partialEquiv_neverEqual (K := K)
  obtain ⟨u, hplain, hstrict, -⟩ := ValuesView.exists_removeFrom v t.size (Cursor.valid_start h) (unseen_start_le h)
  rw [removeValue, removeFirst_calls (Cursor.solid_start h), hstrict, ValuesView.remove, View.edit]
  dsimp only
  rw [hplain]

omit h in
theorem size_retain_le (f : Callback σ K V) (s : σ) : (t.retain f s).2.size ≤ t.size := by
  refine Cursor.retain_preserves (P := fun u => u.size ≤ t.size) ?_ ?_ f t.size s (c := .start t) (Nat.le_refl t.size)
  · intro u loc g hu
    exact hu
  · intro u loc hu
    rw [Table.removeAt?]
    split
    · exact hu
    · exact Nat.le_trans (Nat.sub_le u.size 1) hu

theorem removeValues_eq [BEq V] (vs : List V) :
    removeValues t vs = some ((ValuesView.mk ⟨.exclusive, t⟩).removeAll vs) := by
  rw [removeValues, retain_eq h, Option.bind_eq_bind, Option.bind_some]
  dsimp only
  rw [minus_of_le (size_retain_le _ ())]
  rfl

theorem removePair_eq [BEq K] [BEq V] (k : K) (v : V) :
    removePair t k v = some ((EntrySet.mk ⟨.exclusive, t⟩).remove k v) := by
  rw [removePair, getEntry_eq h, EntrySet.remove, View.edit, Option.bind_eq_bind, Option.bind_some]
  dsimp only
  rw [removeEntry_eq h, Table.get?]
  split <;> rfl

end Tables

/-! ### Sections -/

/-- A range of cells, unless there are no sections to divide them into. -/
def sectionRange (cells index count : Nat) : Option CellRange :=
  if count = 0 then none else some (FlatTable.sectionRange cells index count)

/-- The slots of a range must stand in the slot array in order. -/
def pairsIn (t : Table K V) (r : CellRange) : Option (List (K × V)) :=
  if r.start / 2 ≤ r.stop / 2 ∧ r.stop / 2 ≤ t.slots.size then some (t.pairsIn r) else none

def sectionPairs (t : Table K V) (index count : Nat) : Option (Except TableError (List (K × V))) :=
  if count = 0 then some (.error (.invalidArgument .noSections))
  else if count ≤ index then some (.error (.invalidArgument (.sectionIndex index count)))
  else do
    let r ← sectionRange t.cellCount index count
    let pairs ← pairsIn t r
    return .ok pairs

def parallelPairs (t : Table K V) (workers : Nat) (order : List Nat) : Option (List (K × V)) := do
  let parts ← order.mapM fun i => do pairsIn t (← sectionRange t.cellCount i workers)
  return parts.flatten

section Sections

variable (t : Table K V) {index count : Nat}

theorem section_eq (hindex : index < count) : (do pairsIn t (← sectionRange t.cellCount index count)) =
    some (t.pairsIn (FlatTable.sectionRange t.cellCount index count)) := by
  have hle := boundary_le t.cellCount count (index + 1)
  have hmono := boundary_mono t.cellCount (Nat.le_succ index) hindex
  rw [Table.cellCount] at hle
  rw [sectionRange, if_neg (by omega), Option.bind_eq_bind, Option.bind_some, sectionRange_eq _ hindex, pairsIn]
  exact if_pos ⟨Nat.div_le_div_right hmono, by dsimp only; rw [Table.cellCount]; omega⟩

theorem sectionPairs_eq (index count : Nat) : sectionPairs t index count = some (t.sectionPairs index count) := by
  rw [sectionPairs]
  rcases Nat.lt_or_ge index count with hlt | hge
  · have hsection := section_eq t hlt
    rw [Table.sectionPairs_of_lt t hlt, if_neg (by omega), if_neg (by omega), ← bind_assoc, hsection]
    rfl
  · rw [Table.sectionPairs_of_le t hge]
    split
    · rfl
    · rfl

theorem parallelPairs_eq (workers : Nat) (order : List Nat) (horder : ∀ i ∈ order, i < workers) :
    parallelPairs t workers order = some (t.parallelPairs workers order) := by
  have hparts : (order.mapM fun i => do pairsIn t (← sectionRange t.cellCount i workers)) =
      some (order.map fun i => t.pairsIn (FlatTable.sectionRange t.cellCount i workers)) := by
    induction order with
    | nil => rfl
    | cons i order ih =>
      rw [List.forall_mem_cons] at horder
      rw [List.mapM_cons, section_eq t horder.1, ih horder.2]
      rfl
  rw [parallelPairs, hparts, Table.parallelPairs, List.flatMap_def]
  rfl

end Sections

end Checked

/-! ### Traversals -/

namespace Traversal

variable {α : Type}

/-- Every index below the size has an element. -/
def Strategy.Complete : Strategy α → Prop
  | indexed size item => ∀ i < size, ∃ a, item i = some a
  | _ => True

theorem complete_runStrategy (items : Array α) : (runStrategy items).Complete := by
  rw [runStrategy]
  split
  · exact True.intro
  · intro i hi
    exact ⟨items[i], Array.getElem?_eq_getElem hi⟩

theorem complete_slice (s : Slice α) : (Enumerable.strategy s).Complete := by
  change Strategy.Complete (if directThreshold ≤ s.size then _ else _)
  split
  · exact True.intro
  · intro i hi
    have hlt : s.start + i < s.items.size := by
      rw [Slice.size] at hi
      omega
    exact ⟨s.items[s.start + i], by rw [Slice.get?, if_pos hi, Array.getElem?_eq_getElem hlt]⟩

theorem complete_ringBuffer (q : RingBuffer α) : (Enumerable.strategy q).Complete := by
  change Strategy.Complete (if q.back.isEmpty && decide (directThreshold ≤ q.front.size) then _ else _)
  split
  · exact True.intro
  · intro i hi
    rw [RingBuffer.get?]
    split
    · rename_i hfront
      exact ⟨q.front[i], Array.getElem?_eq_getElem hfront⟩
    · have hback : i - q.front.size < q.back.size := by
        rw [RingBuffer.size] at hi
        omega
      exact ⟨q.back[i - q.front.size], Array.getElem?_eq_getElem hback⟩

end Traversal

namespace Checked

section Folds

variable {α β γ : Type} {m : Type → Type} [Monad m]

/-- A fold that takes its accumulator out for each call and puts the result back. -/
def injectInto [Traversal.Enumerable γ α] (start : β) (source : γ) (f : β → α → m β) : m (Option β) :=
  Traversal.drive source (some start) fun acc _ a => do
    match acc with
    | none => return .yield none
    | some b => return .yield (some (← f b a))

theorem injectInto_eq [LawfulMonad m] [Traversal.Enumerable γ α] (start : β) (source : γ) (f : β → α → m β) :
    injectInto start source f = some <$> Traversal.injectInto start source f := by
  have hlist (l : List α) (i : Nat) (b : β) :
      Traversal.driveList (fun acc _ a => do
        match acc with
        | none => return .yield none
        | some b => return .yield (some (← f b a))) l i (some b) =
      some <$> Traversal.driveList (fun acc _ a => return .yield (← f acc a)) l i b := by
    induction l generalizing i b with
    | nil => simp [Traversal.driveList]
    | cons a l ih => simp only [Traversal.driveList, bind_assoc, pure_bind, map_bind, ih]
  rw [injectInto, Traversal.injectInto, Traversal.drive_eq, Traversal.drive_eq, hlist]

end Folds

end Checked

end FlatTable

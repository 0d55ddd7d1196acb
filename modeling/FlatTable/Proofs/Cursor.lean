import FlatTable.Proofs.Layout
import FlatTable.Table.Cursor

/-!
# What a cursor has seen

A cursor's position cuts the traversal in two: the buckets it has seen and those it has not. Returning a pair moves the cut past one bucket. Removing the pair returned last takes the last seen bucket away, and however the slot is rebuilt, the unseen part keeps its buckets: the one that was moved comes to stand right behind the cut.
-/

namespace FlatTable

universe u v

variable {K : Type u} {V : Type v}

/-! ### The two parts of a traversal -/

/-- The buckets before a place. -/
def bucketsBefore (slots : Array (Slot K V)) (position cell : Nat) : List (Bucket K V) :=
  (slots.toList.take position).flatMap Slot.buckets ++ (bucketsIn slots position).take cell

/-- The buckets at a place and behind it. -/
def bucketsFrom (slots : Array (Slot K V)) (position cell : Nat) : List (Bucket K V) :=
  (bucketsIn slots position).drop cell ++ (slots.toList.drop (position + 1)).flatMap Slot.buckets

/-- The place behind a location. -/
def Location.after : Location → Nat × Nat
  | .primary s => (s + 1, 0)
  | .chained s i => (s, i + 1)

private theorem take_length_succ {α : Type u} (l r : List α) (a : α) :
    (l ++ a :: r).take (l.length + 1) = l ++ [a] := by
  rw [List.append_cons, List.take_left' (by simp)]

section Places

variable {slots : Array (Slot K V)} {x y : List (Slot K V)} {s : Slot K V}

theorem bucketsBefore_of_split (h : slots.toList = x ++ s :: y) (cell : Nat) :
    bucketsBefore slots x.length cell = x.flatMap Slot.buckets ++ s.buckets.take cell := by
  rw [bucketsBefore, bucketsIn, getD_of_split h, h, List.take_left' rfl]

theorem bucketsFrom_of_split (h : slots.toList = x ++ s :: y) (cell : Nat) :
    bucketsFrom slots x.length cell = s.buckets.drop cell ++ y.flatMap Slot.buckets := by
  rw [bucketsFrom, bucketsIn, getD_of_split h, h]
  simp

theorem bucketsBefore_zero (slots : Array (Slot K V)) (position : Nat) :
    bucketsBefore slots position 0 = (slots.toList.take position).flatMap Slot.buckets := by
  rw [bucketsBefore, List.take_zero, List.append_nil]

theorem bucketsFrom_zero (slots : Array (Slot K V)) (position : Nat) :
    bucketsFrom slots position 0 = (slots.toList.drop position).flatMap Slot.buckets := by
  by_cases hlt : position < slots.size
  · obtain ⟨x, y, hsplit, rfl⟩ := exists_split_of_lt hlt
    rw [bucketsFrom_of_split hsplit, hsplit]
    simp
  · have hend : bucketsIn slots position = [] := by
      rw [bucketsIn, Array.getD_eq_getD_getElem?, Array.getElem?_eq_none (by omega)]
      rfl
    have hnext : slots.toList.drop (position + 1) = [] := List.drop_eq_nil_of_le (by rw [Array.length_toList]; omega)
    have hdrop : slots.toList.drop position = [] := List.drop_eq_nil_of_le (by rw [Array.length_toList]; omega)
    rw [bucketsFrom, hend, hnext, hdrop]
    rfl

theorem bucketsBefore_append_bucketsFrom (slots : Array (Slot K V)) (position cell : Nat) :
    bucketsBefore slots position cell ++ bucketsFrom slots position cell = bucketsOf slots := by
  have hin : bucketsIn slots position ++ (slots.toList.drop (position + 1)).flatMap Slot.buckets =
      (slots.toList.drop position).flatMap Slot.buckets := by
    have hzero := bucketsFrom_zero slots position
    rwa [bucketsFrom, List.drop_zero] at hzero
  rw [bucketsBefore, bucketsFrom, List.append_assoc, ← List.append_assoc ((bucketsIn slots position).take cell),
    List.take_append_drop, hin, ← List.flatMap_append, List.take_append_drop, bucketsOf]

/-- The place behind a live location cuts the traversal right behind its bucket. -/
theorem cut_of_split (h : slots.toList = x ++ s :: y) {loc : Location} (hx : x.length = loc.slot) {b : Bucket K V}
    (hat : s.bucketAt? loc = some b) {l r : List (Bucket K V)} (hlr : s.buckets = l ++ b :: r)
    (hl : l.length = loc.cell) :
    bucketsBefore slots loc.after.1 loc.after.2 = x.flatMap Slot.buckets ++ (l ++ [b]) ∧
      bucketsFrom slots loc.after.1 loc.after.2 = r ++ y.flatMap Slot.buckets := by
  obtain ⟨i, rfl, rfl⟩ | ⟨i, j, c, rfl, rfl, -⟩ := Slot.shape_of_bucketAt? hat
  · obtain rfl : l = [] := List.eq_nil_of_length_eq_zero hl
    obtain rfl : r = [] := (List.cons.inj hlr).2.symm
    change x.length = i at hx
    subst hx
    change bucketsBefore slots (x.length + 1) 0 = _ ∧ bucketsFrom slots (x.length + 1) 0 = _
    rw [bucketsBefore_zero, bucketsFrom_zero, h, take_length_succ]
    simp [Slot.buckets]
  · change x.length = i at hx
    change l.length = j at hl
    subst hx hl
    change bucketsBefore slots x.length (l.length + 1) = _ ∧ bucketsFrom slots x.length (l.length + 1) = _
    rw [bucketsBefore_of_split h, bucketsFrom_of_split h, hlr, take_length_succ]
    simp

theorem exists_split_around (h : AllWellFormed slots) {loc : Location} {b : Bucket K V}
    (hb : bucketAt? slots loc = some b) : ∃ x s y l r, slots.toList = x ++ s :: y ∧ x.length = loc.slot ∧
      s.WellFormed ∧ s.bucketAt? loc = some b ∧ s.buckets = l ++ b :: r ∧ l.length = loc.cell := by
  obtain ⟨x, s, y, hsplit, hx, hat⟩ := exists_split_of_bucketAt? hb
  have hs : s.WellFormed := h s (by rw [hsplit]; simp)
  obtain ⟨l, r, hlr, hl⟩ := Slot.exists_split hs hat
  exact ⟨x, s, y, l, r, hsplit, hx, hs, hat, hlr, hl⟩

theorem bucketsFrom_of_bucketAt? (h : AllWellFormed slots) {loc : Location} {b : Bucket K V}
    (hb : bucketAt? slots loc = some b) :
    bucketsFrom slots loc.slot loc.cell = b :: bucketsFrom slots loc.after.1 loc.after.2 := by
  obtain ⟨x, s, y, l, r, hsplit, hx, -, hat, hlr, hl⟩ := exists_split_around h hb
  obtain ⟨-, hfrom⟩ := cut_of_split hsplit hx hat hlr hl
  rw [hfrom, ← hx, ← hl, bucketsFrom_of_split hsplit, hlr, List.drop_left' rfl, List.cons_append]

end Places

/-! ### Seeking -/

/-- A place that seeking understands: a cell other than the first is one of a chain. -/
def IsPlace (slots : Array (Slot K V)) (position cell : Nat) : Prop :=
  cell = 0 ∨ ∃ c, slots[position]? = some (.chained c)

theorem isPlace_after {slots : Array (Slot K V)} {loc : Location} {b : Bucket K V}
    (hb : bucketAt? slots loc = some b) : IsPlace slots loc.after.1 loc.after.2 := by
  obtain ⟨s, hs, hat⟩ := Option.bind_eq_some_iff.mp hb
  obtain ⟨i, rfl, -⟩ | ⟨i, j, c, rfl, rfl, -⟩ := Slot.shape_of_bucketAt? hat
  · exact Or.inl rfl
  · exact Or.inr ⟨c, hs⟩

theorem bucketsFrom_of_getElem {slots : Array (Slot K V)} {position : Nat} (hlt : position < slots.size) (cell : Nat) :
    bucketsFrom slots position cell = slots[position].buckets.drop cell ++ bucketsFrom slots (position + 1) 0 := by
  rw [bucketsFrom_zero, bucketsFrom, bucketsIn, Array.getD_eq_getD_getElem?, Array.getElem?_eq_getElem hlt]
  rfl

/-- Seeking finds the first bucket behind a place, and stops right after it. -/
theorem seek_of_cons {slots : Array (Slot K V)} (h : AllWellFormed slots) {position cell : Nat}
    (hplace : IsPlace slots position cell) {b : Bucket K V} {rest : List (Bucket K V)}
    (hfrom : bucketsFrom slots position cell = b :: rest) :
    ∃ loc, seek slots position cell = some (loc, loc.after) ∧ bucketAt? slots loc = some b ∧
      bucketsFrom slots loc.after.1 loc.after.2 = rest := by
  -- The search leaves a slot only if nothing stands behind the place there, so what follows is the same.
  fun_induction seek slots position cell with
  | case1 position cell hlt hempty ih =>
    refine ih (Or.inl rfl) ?_
    rw [← hfrom, bucketsFrom_of_getElem hlt, hempty]
    simp [Slot.buckets]
  | case2 position cell hlt first hpair =>
    have hcell : cell = 0 := by
      rcases hplace with hcell | ⟨c, hc⟩
      · exact hcell
      · rw [Array.getElem?_eq_getElem hlt, hpair] at hc
        simp at hc
    have hat : bucketAt? slots (.primary position) = some first := by
      rw [bucketAt?, Location.slot, Array.getElem?_eq_getElem hlt, hpair]
      rfl
    have hfirst : bucketsFrom slots position 0 = first :: _ := bucketsFrom_of_bucketAt? h hat
    rw [hcell, hfirst] at hfrom
    obtain ⟨rfl, hrest⟩ := List.cons.inj hfrom
    exact ⟨.primary position, rfl, hat, hrest⟩
  | case3 position cell hlt c hchain hcell =>
    have hwf : (Slot.chained c).WellFormed := h _ (by rw [← hchain]; exact Array.getElem_mem_toList hlt)
    rw [Chain.length_eq] at hcell
    have hat : bucketAt? slots (.chained position cell) = some c.buckets[cell] := by
      rw [bucketAt?, Location.slot, Array.getElem?_eq_getElem hlt, hchain]
      change c.get? cell = _
      rw [Chain.get?_eq hwf.1, List.getElem?_eq_getElem hcell]
    have hfirst : bucketsFrom slots position cell = c.buckets[cell] :: _ := bucketsFrom_of_bucketAt? h hat
    rw [hfirst] at hfrom
    obtain ⟨hb, hrest⟩ := List.cons.inj hfrom
    exact ⟨.chained position cell, rfl, by rw [hat, hb], hrest⟩
  | case4 position cell hlt c hchain hcell ih =>
    refine ih (Or.inl rfl) ?_
    rw [Chain.length_eq, Nat.not_lt] at hcell
    have hdrop : (Slot.chained c).buckets.drop cell = [] := List.drop_eq_nil_of_le hcell
    rw [← hfrom, bucketsFrom_of_getElem hlt, hchain, hdrop, List.nil_append]
  | case5 position cell hend =>
    have hin : bucketsIn slots position = [] := by
      rw [bucketsIn, Array.getD_eq_getD_getElem?, Array.getElem?_eq_none (by omega)]
      rfl
    have hdrop : slots.toList.drop (position + 1) = [] := List.drop_eq_nil_of_le (by rw [Array.length_toList]; omega)
    rw [bucketsFrom, hin, hdrop] at hfrom
    simp at hfrom

namespace Cursor

/-- The buckets that were returned and not removed. -/
def seen (c : Cursor K V) : List (Bucket K V) := bucketsBefore c.table.slots c.position c.cell

/-- The buckets to come. -/
def unseen (c : Cursor K V) : List (Bucket K V) := bucketsFrom c.table.slots c.position c.cell

theorem seen_append_unseen (c : Cursor K V) : c.seen ++ c.unseen = c.table.buckets :=
  bucketsBefore_append_bucketsFrom c.table.slots c.position c.cell

theorem toList_eq (c : Cursor K V) : c.table.toList = c.seen.map Bucket.toPair ++ c.unseen.map Bucket.toPair := by
  rw [Table.toList, ← seen_append_unseen, List.map_append]

variable [BEq K]

/-- What every cursor satisfies whose table was changed through it only. -/
structure Valid (c : Cursor K V) : Prop where
  layout : c.table.LayoutInvariant
  isPlace : IsPlace c.table.slots c.position c.cell
  visited_eq : c.visited = c.seen.length
  /-- The bucket returned last stands right before the cursor. -/
  last_after : ∀ loc, c.last = some loc → (c.position, c.cell) = loc.after ∧ ∃ b, c.table.bucketAt? loc = some b

omit [BEq K] in
theorem seen_start (t : Table K V) : (start t).seen = [] := by
  rw [seen, start, bucketsBefore_zero]
  rfl

theorem valid_start {t : Table K V} (h : t.LayoutInvariant) : (start t).Valid where
  layout := h
  isPlace := Or.inl rfl
  visited_eq := by rw [seen_start]; rfl
  last_after loc hloc := by simp [start] at hloc

omit [BEq K] in
theorem unseen_start (t : Table K V) : (start t).unseen = t.buckets := by
  rw [unseen, start, bucketsFrom_zero, List.drop_zero]
  rfl

theorem size_eq {c : Cursor K V} (h : c.Valid) : c.table.size = c.visited + c.unseen.length := by
  rw [h.layout.size_eq, ← seen_append_unseen, List.length_append, h.visited_eq]

theorem remaining_eq {c : Cursor K V} (h : c.Valid) : c.remaining = c.unseen.length := by
  rw [remaining, size_eq h, Nat.add_sub_cancel_left]

/-! ### Returning a pair -/

theorem next_of_nil {c : Cursor K V} (h : c.Valid) (hunseen : c.unseen = []) : c.next = (.error .exhausted, c) := by
  have hsize := size_eq h
  rw [hunseen, List.length_nil] at hsize
  rw [next, hasNext, hsize]
  simp

/-- The bucket behind the cut is returned, and the cut moves past it. -/
theorem next_of_cons {c : Cursor K V} (h : c.Valid) {b : Bucket K V} {rest : List (Bucket K V)}
    (hunseen : c.unseen = b :: rest) : ∃ c' loc, c.next = (.ok b.toPair, c') ∧ c'.Valid ∧ c'.table = c.table ∧
      c'.seen = c.seen ++ [b] ∧ c'.unseen = rest ∧ c'.last = some loc ∧ c.table.bucketAt? loc = some b := by
  have hsize := size_eq h
  have hmore : c.hasNext = true := by
    rw [hunseen, List.length_cons] at hsize
    rw [hasNext, decide_eq_true_iff]
    omega
  obtain ⟨loc, hseek, hat, hrest⟩ := seek_of_cons h.layout.wellFormed h.isPlace hunseen
  have hseen : bucketsBefore c.table.slots loc.after.1 loc.after.2 = c.seen ++ [b] := by
    have hcut := bucketsBefore_append_bucketsFrom c.table.slots loc.after.1 loc.after.2
    have hall : c.seen ++ c.unseen = bucketsOf c.table.slots := seen_append_unseen c
    rw [hrest, ← hall, hunseen, List.append_cons] at hcut
    exact List.append_cancel_right hcut
  refine ⟨{ c with
    visited := c.visited + 1, position := loc.after.1, cell := loc.after.2, last := some loc }, loc, ?_, ?_, rfl, hseen,
    hrest, rfl, hat⟩
  · have hbucket : c.table.bucketAt? loc = some b := hat
    rw [next, hmore, hseek]
    simp only [Bool.not_true, Bool.false_eq_true, if_false, hbucket]
  · refine ⟨h.layout, isPlace_after hat, ?_, ?_⟩
    · change c.visited + 1 = (bucketsBefore c.table.slots loc.after.1 loc.after.2).length
      rw [hseen, List.length_append, h.visited_eq]
      rfl
    · rintro loc' ⟨⟩
      exact ⟨rfl, b, hat⟩

/-! ### Changing the value of the pair returned last -/

/-- The bucket returned last is the last one seen, and its value can be changed without moving the cut. -/
theorem modifyLast_of_last {c : Cursor K V} (h : c.Valid) {loc : Location} (hlast : c.last = some loc)
    {b : Bucket K V} (hb : c.table.bucketAt? loc = some b) (f : V → V) :
    ∃ s, c.seen = s ++ [b] ∧ (c.modifyLast f).seen = s ++ [b.mapValue f] ∧ (c.modifyLast f).unseen = c.unseen ∧
      (c.modifyLast f).last = some loc ∧ (c.modifyLast f).table.bucketAt? loc = some (b.mapValue f) ∧
      (c.modifyLast f).Valid := by
  obtain ⟨t, visited, position, cell, last⟩ := c
  obtain rfl : last = some loc := hlast
  obtain ⟨hafter, -⟩ := h.last_after loc rfl
  obtain ⟨rfl, rfl⟩ : position = loc.after.1 ∧ cell = loc.after.2 := Prod.mk.inj hafter
  obtain ⟨x, s, y, l, r, hsplit, hx, hs, hat, hlr, hl⟩ := exists_split_around h.layout.wellFormed hb
  have hsplit' : (t.modifyValueAt loc f).slots.toList = x ++ s.modifyValue f loc :: y := by
    rw [← toList_modify_of_split hsplit, hx]
    rfl
  have hat' := Slot.bucketAt?_modifyValue hs hat f
  have hlr' : (s.modifyValue f loc).buckets = l ++ b.mapValue f :: r := by
    rw [Slot.buckets_modifyValue hs hat, ← hl, hlr, List.modify_eq_take_cons_drop (by simp)]
    simp
  obtain ⟨hseen, hunseen⟩ := cut_of_split hsplit hx hat hlr hl
  obtain ⟨hseen', hunseen'⟩ := cut_of_split hsplit' hx hat' hlr' hl
  have hb' : bucketAt? (t.modifyValueAt loc f).slots loc = some (b.mapValue f) := by
    rw [bucketAt?_of_split hsplit' hx, hat']
  refine ⟨x.flatMap Slot.buckets ++ l, by rw [List.append_assoc]; exact hseen,
    by rw [List.append_assoc]; exact hseen', hunseen'.trans hunseen.symm, rfl, hb', ?_⟩
  refine ⟨(Table.keeps_modifyValueAt t loc f).layout h.layout, isPlace_after hb', ?_, ?_⟩
  · have hvisited : visited = (bucketsBefore t.slots loc.after.1 loc.after.2).length := h.visited_eq
    change visited = (bucketsBefore (t.modifyValueAt loc f).slots loc.after.1 loc.after.2).length
    rw [hvisited, hseen, hseen']
    simp
  · rintro loc' ⟨⟩
    exact ⟨rfl, _, hb'⟩

/-! ### Removing the pair returned last -/

omit [BEq K] in
theorem remove_of_none {c : Cursor K V} (hlast : c.last = none) : c.remove = (.error .invalidCursorState, c) := by
  obtain ⟨t, visited, position, cell, last⟩ := c
  obtain rfl : last = none := hlast
  rfl

omit [BEq K] in
/-- Where the cursor goes on after a removal, it has seen the buckets before the removed one and no others. -/
theorem bucketsBefore_resume {slots : Array (Slot K V)} {x y : List (Slot K V)} {s : Slot K V}
    (h : slots.toList = x ++ s :: y) {loc : Location} (hx : x.length = loc.slot) {l r : List (Bucket K V)}
    (hlr : s.buckets = l ++ r) (hl : l.length = loc.cell) (hprimary : ∀ i, loc = .primary i → s = .empty) :
    let place := resume slots loc loc.after.1 loc.after.2
    IsPlace slots place.1 place.2 ∧ bucketsBefore slots place.1 place.2 = x.flatMap Slot.buckets ++ l := by
  have hnext : bucketsBefore slots (x.length + 1) 0 = x.flatMap Slot.buckets ++ s.buckets := by
    rw [bucketsBefore_zero, h, take_length_succ]
    simp
  have hslot : slots[x.length]? = some s := by
    rw [← Array.getElem?_toList, h]
    simp
  cases loc with
  | primary i =>
    obtain rfl := hprimary i rfl
    obtain ⟨rfl, rfl⟩ := List.append_eq_nil_iff.mp hlr.symm
    change x.length = i at hx
    subst hx
    exact ⟨Or.inl rfl, hnext⟩
  | chained i j =>
    change x.length = i at hx
    change l.length = j at hl
    subst hx hl
    rw [resume, hslot]
    cases s with
    | empty =>
      obtain ⟨rfl, rfl⟩ := List.append_eq_nil_iff.mp hlr.symm
      exact ⟨Or.inl rfl, hnext⟩
    | pair b =>
      rcases List.append_eq_singleton_iff.mp hlr.symm with ⟨rfl, rfl⟩ | ⟨rfl, rfl⟩
      · exact ⟨Or.inl rfl, bucketsBefore_of_split h 0⟩
      · exact ⟨Or.inl rfl, hnext⟩
    | chained c =>
      refine ⟨Or.inr ⟨c, hslot⟩, ?_⟩
      change bucketsBefore slots x.length l.length = _
      rw [bucketsBefore_of_split h, hlr, List.take_left' rfl]

/-- The bucket seen last is taken out; what was behind the cut stays behind it. -/
theorem remove_of_last [PartialEquivBEq K] {c : Cursor K V} (h : c.Valid) {loc : Location} (hlast : c.last = some loc)
    {b : Bucket K V} (hb : c.table.bucketAt? loc = some b) :
    ∃ s c', c.seen = s ++ [b] ∧ c.remove = (.ok b.toPair, c') ∧ c'.table = c.table.dropAt loc ∧ c'.seen = s ∧
      c'.unseen.Perm c.unseen ∧ c'.last = none ∧ c'.Valid := by
  obtain ⟨t, visited, position, cell, last⟩ := c
  obtain rfl : last = some loc := hlast
  obtain ⟨hafter, -⟩ := h.last_after loc rfl
  obtain ⟨rfl, rfl⟩ : position = loc.after.1 ∧ cell = loc.after.2 := Prod.mk.inj hafter
  obtain ⟨x, s, y, l, r, hsplit, hx, hs, hat, hlr, hl⟩ := exists_split_around h.layout.wellFormed hb
  obtain ⟨hseen, hunseen⟩ := cut_of_split hsplit hx hat hlr hl
  have hsplit' : (t.dropAt loc).slots.toList = x ++ s.remove loc :: y := by
    rw [← toList_modify_of_split hsplit, hx]
    rfl
  -- The last bucket of the slot moves into the gap: in the traversal, to the front of what was unseen there.
  have hlr' : (s.remove loc).buckets = l ++ lastToFront r := by
    rw [Slot.buckets_remove hs hat, ← hl, hlr, swapRemove_append_cons]
  have hempty : ∀ i, loc = .primary i → s.remove loc = .empty := by
    rintro i rfl
    obtain ⟨i', -, rfl⟩ | ⟨i', j, c, hloc, -⟩ := Slot.shape_of_bucketAt? hat
    · rfl
    · cases hloc
  have hall : bucketsOf (t.dropAt loc).slots =
      x.flatMap Slot.buckets ++ l ++ (lastToFront r ++ y.flatMap Slot.buckets) := by
    rw [bucketsOf_of_split hsplit', hlr']
    simp
  obtain ⟨hplace, hbefore⟩ := bucketsBefore_resume hsplit' hx hlr' hl hempty
  generalize hresume : resume (t.dropAt loc).slots loc loc.after.1 loc.after.2 = place at hplace hbefore
  have hfrom : bucketsFrom (t.dropAt loc).slots place.1 place.2 = lastToFront r ++ y.flatMap Slot.buckets := by
    rw [← bucketsBefore_append_bucketsFrom _ place.1 place.2, hbefore] at hall
    exact List.append_cancel_left hall
  refine ⟨x.flatMap Slot.buckets ++ l, ⟨t.dropAt loc, visited - 1, place.1, place.2, none⟩,
    by rw [List.append_assoc]; exact hseen, ?_, rfl, hbefore, ?_, rfl, ?_⟩
  · simp only [remove, Table.removeAt?_of_bucketAt? hb, hresume]
  · change (bucketsFrom (t.dropAt loc).slots place.1 place.2).Perm (bucketsFrom t.slots loc.after.1 loc.after.2)
    rw [hfrom, hunseen]
    exact (lastToFront_perm r).append_right _
  · refine ⟨Table.layoutInvariant_dropAt h.layout hb, hplace, ?_, fun loc' hloc' => by simp at hloc'⟩
    have hvisited : visited = (bucketsBefore t.slots loc.after.1 loc.after.2).length := h.visited_eq
    change visited - 1 = (bucketsBefore (t.dropAt loc).slots place.1 place.2).length
    rw [hvisited, hbefore, hseen]
    simp

/-! ### What a cursor does to its table -/

omit [BEq K] in
theorem table_next (c : Cursor K V) : c.next.2.table = c.table := by
  rw [next]
  split
  · rfl
  · split
    · rfl
    · split <;> rfl

section Preserved

variable {P : Table K V → Prop} {c : Cursor K V}

omit [BEq K] in
theorem modifyLast_preserves (hwrite : ∀ t loc (f : V → V), P t → P (t.modifyValueAt loc f)) (f : V → V)
    (h : P c.table) : P (c.modifyLast f).table := by
  rw [modifyLast]
  split
  · exact h
  · exact hwrite _ _ f h

omit [BEq K] in
theorem remove_preserves (hremove : ∀ t loc, P t → P (t.removeAt? loc).2) (h : P c.table) : P c.remove.2.table := by
  obtain ⟨t, visited, position, cell, last⟩ := c
  cases last with
  | none => exact h
  | some loc =>
    have hremoved := hremove t loc h
    rw [remove]
    rcases hat : t.removeAt? loc with ⟨- | b, u⟩ <;> rw [hat] at hremoved <;> exact hremoved

end Preserved

theorem keeps_next (c : Cursor K V) : c.table.Keeps c.next.2.table := by
  rw [table_next]
  exact Table.Keeps.refl c.table

theorem keeps_modifyLast (c : Cursor K V) (f : V → V) : c.table.Keeps (c.modifyLast f).table :=
  modifyLast_preserves (fun t loc f h => h.trans (Table.keeps_modifyValueAt t loc f)) f (Table.Keeps.refl c.table)

theorem keeps_remove [PartialEquivBEq K] (c : Cursor K V) : c.table.Keeps c.remove.2.table :=
  remove_preserves (fun t loc h => h.trans (Table.keeps_removeAt? t loc)) (Table.Keeps.refl c.table)

end Cursor

end FlatTable

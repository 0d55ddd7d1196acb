import FlatTable.Proofs.Iteration
import FlatTable.Proofs.Reachable

/-!
# All walks agree

Iterators that read, iterators that write, cursors, callbacks and handles all come by the pairs of a table in the order of its traversal. A walker is anything that is called again and again; it yields a list if its answers are the items of the list in turn, then the same refusal for ever, and if it says before each call how many items are left. That is shown by an invariant that each call preserves.
-/

namespace FlatTable

universe u v

/-! ### Walkers -/

/-- What is called again and again. The number of the call is known to the caller, who may act by it. -/
structure Walker (σ : Type u) (ρ : Type v) where
  call : Nat → σ → ρ × σ
  /-- How many items are left, as the walker reports it. -/
  length : σ → Nat

namespace Walker

variable {σ : Type u} {ρ : Type v}

/-- The state before the call of a number. -/
def after (w : Walker σ ρ) (s : σ) : Nat → σ
  | 0 => s
  | n + 1 => (w.call n (w.after s n)).2

/-- The calls are answered by the items in turn and from then on by `stop`, and the length before each call is the number of items left. -/
structure Yields (w : Walker σ ρ) (stop : ρ) (items : List ρ) (s : σ) : Prop where
  answer (n : Nat) : (w.call n (w.after s n)).1 = items[n]?.getD stop
  length (n : Nat) : w.length (w.after s n) = items.length - n

variable {w : Walker σ ρ} {I : Nat → σ → Prop}

theorem inv_after (hstep : ∀ n s, I n s → I (n + 1) (w.call n s).2) {s : σ} (h : I 0 s) (n : Nat) :
    I n (w.after s n) := by
  induction n with
  | zero => exact h
  | succ n ih => exact hstep n (w.after s n) ih

theorem yields_of_invariant {stop : ρ} {items : List ρ}
    (hlength : ∀ n s, I n s → w.length s = items.length - n)
    (hstep : ∀ n s, I n s → (w.call n s).1 = items[n]?.getD stop ∧ I (n + 1) (w.call n s).2) {s : σ}
    (h : I 0 s) : w.Yields stop items s where
  answer n := (hstep n _ (inv_after (fun n s hs => (hstep n s hs).2) h n)).1
  length n := hlength n _ (inv_after (fun n s hs => (hstep n s hs).2) h n)

end Walker

variable {K V : Type}

/-! ### Values written on the way -/

/-- The pairs that the first `n` calls met, with the values written to them. -/
def writtenBefore (f : Nat → V → V) (n : Nat) (ps : List (K × V)) : List (K × V) :=
  (ps.take n).zipIdx.map fun (p, i) => (p.1, f i p.2)

/-- All pairs after `n` calls. -/
def written (f : Nat → V → V) (n : Nat) (ps : List (K × V)) : List (K × V) := writtenBefore f n ps ++ ps.drop n

section Written

variable {f : Nat → V → V} {n : Nat} {ps : List (K × V)}

theorem getElem?_of_drop {α : Type} {l rest : List α} {a : α} (h : l.drop n = a :: rest) : l[n]? = some a := by
  have hhead : (l.drop n)[0]? = some a := by rw [h]; rfl
  rwa [List.getElem?_drop, Nat.add_zero] at hhead

theorem writtenBefore_succ {p : K × V} {rest : List (K × V)} (h : ps.drop n = p :: rest) :
    writtenBefore f (n + 1) ps = writtenBefore f n ps ++ [(p.1, f n p.2)] := by
  obtain ⟨hlt, hp⟩ := List.getElem?_eq_some_iff.mp (getElem?_of_drop h)
  have hfirst : (ps.take n).length = n := List.length_take_of_le (Nat.le_of_lt hlt)
  rw [writtenBefore, List.take_succ_eq_append_getElem hlt, List.zipIdx_append, List.map_append, hp, hfirst]
  simp [writtenBefore]

theorem writtenBefore_succ_of_nil (h : ps.drop n = []) : writtenBefore f (n + 1) ps = writtenBefore f n ps := by
  have hle : ps.length ≤ n := List.drop_eq_nil_iff.mp h
  rw [writtenBefore, writtenBefore, List.take_of_length_le hle, List.take_of_length_le (by omega)]

end Written

namespace Iter

/-! ### Iterators -/

/-- An iterator that reads, of which the caller takes a part of each pair. -/
def reading {α : Type} (part : K × V → α) : Walker (Iter K V) (Option α) where
  call _ it := it.nextPart part
  length := remaining

/-- An iterator that writes; the values of the call numbered `n` are changed by `f n`. -/
def writing {α : Type} (part : K × V → α) (f : Nat → V → V) : Walker (Iter K V) (Option α) where
  call n it :=
    let (item, it) := it.nextModify (f n)
    (item.map part, it)
  length := remaining

/-- After `n` calls the pairs behind the first `n` are to come. -/
structure Stands (ps : List (K × V)) (n : Nat) (it : Iter K V) : Prop where
  valid : it.Valid
  unseen_eq : (it.unseen.map fun p => p.2.toPair) = ps.drop n

variable {ps : List (K × V)} {n : Nat} {it : Iter K V}

theorem stands_iter [BEq K] {t : Table K V} (h : t.LayoutInvariant) : Stands t.toList 0 t.iter :=
  ⟨valid_iter h, map_unseen_iter t⟩

theorem Stands.remaining_eq (h : Stands ps n it) : it.remaining = ps.length - n := by
  rw [h.valid.remaining_eq, ← List.length_map (fun p => p.2.toPair), h.unseen_eq, List.length_drop]

theorem Stands.toList_eq (h : Stands ps n it) : it.toList = ps.drop n := by
  rw [Iter.toList_eq h.valid, h.unseen_eq]

/-- A copy stands before the first of the pairs that are left. -/
theorem Stands.copy (h : Stands ps n it) : Stands (ps.drop n) 0 it := ⟨h.valid, h.unseen_eq⟩

/-- A call either meets the end and changes nothing, or yields the pair behind the first `n`. -/
theorem Stands.next (h : Stands ps n it) :
    (ps.drop n = [] ∧ it.next = (none, it) ∧ Stands ps (n + 1) it) ∨
      ∃ loc b it', ps.drop n = b.toPair :: ps.drop (n + 1) ∧ it.next = (some (loc, b), it') ∧
        it.unseen = (loc, b) :: it'.unseen ∧ it'.table = it.table ∧ Stands ps (n + 1) it' := by
  have hunseen := h.unseen_eq
  rcases hcons : it.unseen with - | ⟨⟨loc, b⟩, rest⟩
  · rw [hcons] at hunseen
    have hend : ps.drop (n + 1) = [] := by rw [← List.tail_drop, ← hunseen]; rfl
    exact Or.inl ⟨hunseen.symm, next_of_nil h.valid hcons, h.valid, by rw [hcons, hend]; rfl⟩
  · obtain ⟨it', hnext, hvalid, htable, hrest⟩ := next_of_cons h.valid hcons
    rw [hcons] at hunseen
    have htail : ps.drop (n + 1) = rest.map fun p => p.2.toPair := by rw [← List.tail_drop, ← hunseen]; rfl
    refine Or.inr ⟨loc, b, it', ?_, hnext, by rw [hrest], htable, hvalid, by rw [hrest, htail]⟩
    rw [htail]
    exact hunseen.symm

theorem Stands.step {α : Type} {part : K × V → α} (h : Stands ps n it) :
    ((reading part).call n it).1 = (ps.map fun p => some (part p))[n]?.getD none ∧
      Stands ps (n + 1) ((reading part).call n it).2 := by
  show (it.nextPart part).1 = _ ∧ Stands ps (n + 1) (it.nextPart part).2
  rw [nextPart, List.getElem?_map]
  obtain ⟨hdrop, hnext, h'⟩ | ⟨loc, b, it', hdrop, hnext, -, -, h'⟩ := h.next
  · rw [hnext, List.getElem?_eq_none (List.drop_eq_nil_iff.mp hdrop)]
    exact ⟨rfl, h'⟩
  · rw [hnext, getElem?_of_drop hdrop]
    exact ⟨rfl, h'⟩

theorem yields_reading {α : Type} (part : K × V → α) (h : Stands ps 0 it) :
    (reading part).Yields none (ps.map fun p => some (part p)) it := by
  apply Walker.yields_of_invariant ?_ (fun n it h => h.step) h
  intro n it h
  rw [List.length_map]
  exact h.remaining_eq

/-- What holds of an iterator that writes: behind it stand the pairs as it left them, ahead of it as they were. -/
structure Writes [BEq K] (f : Nat → V → V) (ps : List (K × V)) (n : Nat) (it : Iter K V) : Prop where
  stands : Stands ps n it
  layout : it.table.LayoutInvariant
  exists_seen : ∃ seen, IsTraversal it.table.slots (seen ++ it.unseen) ∧
    (seen.map fun p => p.2.toPair) = writtenBefore f n ps

section Writing

variable [BEq K] {f : Nat → V → V}

theorem Writes.toList_eq (h : Writes f ps n it) : it.table.toList = written f n ps := by
  obtain ⟨seen, htraversal, hseen⟩ := h.exists_seen
  rw [Table.toList, Table.buckets, ← htraversal.map_snd h.layout.wellFormed, List.map_map, List.map_append, written,
    ← hseen, ← h.stands.unseen_eq]
  rfl

theorem writes_iter {t : Table K V} (h : t.LayoutInvariant) : Writes f t.toList 0 t.iter where
  stands := stands_iter h
  layout := h
  exists_seen := ⟨[], isTraversal_locatedOf h.wellFormed, rfl⟩

theorem Writes.step {α : Type} {part : K × V → α} (h : Writes f ps n it) :
    ((writing part f).call n it).1 = (ps.zipIdx.map fun (p, i) => some (part (p.1, f i p.2)))[n]?.getD none ∧
      Writes f ps (n + 1) ((writing part f).call n it).2 := by
  obtain ⟨seen, htraversal, hseen⟩ := h.exists_seen
  rw [List.getElem?_map, List.getElem?_zipIdx]
  obtain ⟨hdrop, hnext, h'⟩ | ⟨loc, b, it', hdrop, hnext, hunseen, htable, h'⟩ := h.stands.next
  · have hcall : (writing part f).call n it = (none, it) := by simp only [writing, nextModify, hnext, Option.map_none]
    rw [hcall, List.getElem?_eq_none (List.drop_eq_nil_iff.mp hdrop)]
    exact ⟨rfl, h', h.layout, seen, htraversal, by rw [hseen, writtenBefore_succ_of_nil hdrop]⟩
  · have hcall : (writing part f).call n it =
        (some (part (b.key, f n b.value)), { it' with table := it'.table.modifyValueAt loc (f n) }) := by
      simp only [writing, nextModify, hnext, Option.map_some]
    rw [hunseen] at htraversal
    rw [hcall, getElem?_of_drop hdrop, htable]
    refine ⟨by simp [Bucket.toPair], ⟨⟨h'.valid.tidy, h'.valid.remaining_eq⟩, h'.unseen_eq⟩,
      (Table.keeps_modifyValueAt it.table loc (f n)).layout h.layout, seen ++ [(loc, b.mapValue (f n))], ?_, ?_⟩
    · have hwritten := htraversal.modifyValue (f n)
      rwa [List.append_cons] at hwritten
    · rw [List.map_append, hseen, writtenBefore_succ hdrop]
      rfl

theorem yields_writing {α : Type} (part : K × V → α) (h : Writes f ps 0 it) :
    (writing part f).Yields none (ps.zipIdx.map fun (p, i) => some (part (p.1, f i p.2))) it := by
  apply Walker.yields_of_invariant (I := Writes f ps) ?_ (fun n it h => h.step) h
  intro n it h
  rw [List.length_map, List.length_zipIdx]
  exact h.stands.remaining_eq

end Writing

/-! ### Callbacks -/

theorem visit_eq {m : Type → Type} [Monad m] (f : K → V → Nat → m PUnit) {fuel : Nat} (i : Nat) (h : it.Valid)
    (hfuel : it.unseen.length ≤ fuel) : it.visit f fuel i =
      ((it.unseen.map fun p => p.2.toPair).zipIdx i).forM fun (p, j) => f p.1 p.2 j := by
  induction fuel generalizing it i with
  | zero =>
    have hnil : it.unseen = [] := List.eq_nil_of_length_eq_zero (by omega)
    rw [hnil]
    rfl
  | succ fuel ih =>
    rcases hunseen : it.unseen with - | ⟨⟨loc, b⟩, rest⟩
    · rw [visit, next_of_nil h hunseen]
      rfl
    · obtain ⟨it', hnext, hvalid, -, hrest⟩ := next_of_cons h hunseen
      rw [hunseen, List.length_cons] at hfuel
      have htail := ih (i + 1) hvalid (by rw [hrest]; omega)
      rw [hrest] at htail
      rw [visit, hnext]
      exact congrArg (f b.key b.value i >>= fun _ => ·) htail

end Iter

/-! ### Cursors -/

namespace Cursor

/-- A cursor that removes nothing; the value returned by the call numbered `n` is changed by `f n`. -/
def passing (f : Nat → V → V) : Walker (Cursor K V) (Except TableError (K × V)) where
  call n c := match c.next with
    | (.error e, c) => (.error e, c)
    | (.ok p, c) => (.ok p, c.modifyLast (f n))
  length := remaining

/-- After `n` calls the first `n` pairs were returned and written to, and the others are to come. -/
structure Passes [BEq K] (f : Nat → V → V) (ps : List (K × V)) (n : Nat) (c : Cursor K V) : Prop where
  valid : c.Valid
  seen_eq : c.seen.map Bucket.toPair = writtenBefore f n ps
  unseen_eq : c.unseen.map Bucket.toPair = ps.drop n

variable [BEq K] {f : Nat → V → V} {ps : List (K × V)} {n : Nat} {c : Cursor K V}

theorem passes_start {t : Table K V} (h : t.LayoutInvariant) : Passes f t.toList 0 (start t) :=
  ⟨valid_start h, by rw [seen_start]; rfl, by rw [unseen_start]; rfl⟩

theorem Passes.toList_eq (h : Passes f ps n c) : c.table.toList = written f n ps := by
  rw [Cursor.toList_eq, h.seen_eq, h.unseen_eq, written]

theorem Passes.step (h : Passes f ps n c) :
    ((passing f).call n c).1 = (ps.map .ok)[n]?.getD (.error .exhausted) ∧
      Passes f ps (n + 1) ((passing f).call n c).2 := by
  have hunseen := h.unseen_eq
  rw [List.getElem?_map]
  rcases hcons : c.unseen with - | ⟨b, rest⟩ <;> rw [hcons] at hunseen
  · have hdrop : ps.drop n = [] := hunseen.symm
    have hcall : (passing f).call n c = (.error .exhausted, c) := by
      simp only [passing, next_of_nil h.valid hcons]
    rw [hcall, List.getElem?_eq_none (List.drop_eq_nil_iff.mp hdrop)]
    refine ⟨rfl, h.valid, by rw [h.seen_eq, writtenBefore_succ_of_nil hdrop], ?_⟩
    rw [hcons, ← List.tail_drop, hdrop]
    rfl
  · have hdrop : ps.drop n = b.toPair :: rest.map Bucket.toPair := hunseen.symm
    obtain ⟨c', loc, hnext, hvalid, htable, hseen, hrest, hlast, hb⟩ := next_of_cons h.valid hcons
    rw [← htable] at hb
    obtain ⟨s, hs, hwritten, hahead, -, -, hvalid'⟩ := modifyLast_of_last hvalid hlast hb (f n)
    obtain ⟨rfl, -⟩ := List.append_inj' (hs.symm.trans hseen) rfl
    have hcall : (passing f).call n c = (.ok b.toPair, c'.modifyLast (f n)) := by simp only [passing, hnext]
    rw [hcall, getElem?_of_drop hdrop]
    refine ⟨rfl, hvalid', ?_, ?_⟩
    · rw [hwritten, List.map_append, h.seen_eq, writtenBefore_succ hdrop]
      rfl
    · rw [hahead, hrest, ← List.tail_drop, hdrop]
      rfl

theorem yields_passing (h : Passes f ps 0 c) :
    (passing f).Yields (.error .exhausted) (ps.map .ok) c := by
  apply Walker.yields_of_invariant (I := Passes f ps) ?_ (fun n c h => h.step) h
  intro n c h
  rw [List.length_map]
  show c.remaining = _
  rw [remaining_eq h.valid, ← List.length_map Bucket.toPair, h.unseen_eq, List.length_drop]

end Cursor

/-! ### Agreement -/

namespace Table

/-- All walks over a table agree on one list of pairs. -/
structure WalksAgree [BEq K] (t : Table K V) : Prop where
  /-- The list goes through the live locations in ascending order, none left out and none met twice. -/
  exists_traversal : ∃ ls, IsTraversal t.slots ls ∧ t.toList = ls.map fun p => p.2.toPair
  length_eq : t.toList.length = t.size
  /-- Iterators over pairs, keys and values, borrowing or owning. -/
  reads {α : Type} (part : K × V → α) : (Iter.reading part).Yields none (t.toList.map fun p => some (part p)) t.iter
  /-- A copy of an iterator made after any number of calls. -/
  copies {α : Type} (part : K × V → α) (n : Nat) :
    ((Iter.reading part).after t.iter n).toList = t.toList.drop n ∧
      (Iter.reading part).Yields none ((t.toList.drop n).map fun p => some (part p))
        ((Iter.reading part).after t.iter n)
  /-- Iterators that let values be changed. -/
  writes {α : Type} (part : K × V → α) (f : Nat → V → V) :
    (Iter.writing part f).Yields none (t.toList.zipIdx.map fun (p, i) => some (part (p.1, f i p.2))) t.iter ∧
      ∀ n, ((Iter.writing part f).after t.iter n).table.toList = written f n t.toList
  /-- A cursor driven without removal. -/
  passes (f : Nat → V → V) : (Cursor.passing f).Yields (.error .exhausted) (t.toList.map .ok) (.start t) ∧
    ∀ n, ((Cursor.passing f).after (.start t) n).table.toList = written f n t.toList
  forEach_eq {m : Type → Type} [Monad m] (f : K → V → m PUnit) : t.forEach f = t.toList.forM fun p => f p.1 p.2
  forEachWithIndex_eq {m : Type → Type} [Monad m] (f : K → V → Nat → m PUnit) :
    t.forEachWithIndex f = t.toList.zipIdx.forM fun (p, i) => f p.1 p.2 i
  handles_eq : t.handles = t.toList.map fun p => t.handleFor p.1
  /-- What is met is what looking up its key finds. -/
  lookup : ∀ p ∈ t.toList, t.getEntry? p.1 = some p ∧ t.get? p.1 = some p.2

theorem forM_zipIdx {α : Type} {m : Type → Type} [Monad m] (f : α → m PUnit) (l : List α) (n : Nat) :
    ((l.zipIdx n).forM fun (a, _) => f a) = l.forM f := by
  induction l generalizing n with
  | nil => rfl
  | cons a l ih => exact congrArg (f a >>= fun _ => ·) (ih (n + 1))

variable [BEq K]

theorem forEachWithIndex_eq {m : Type → Type} [Monad m] {t : Table K V} (h : t.LayoutInvariant)
    (f : K → V → Nat → m PUnit) : t.forEachWithIndex f = t.toList.zipIdx.forM fun (p, i) => f p.1 p.2 i := by
  have hvalid := Iter.valid_iter h
  have hfuel : t.iter.unseen.length ≤ t.size := Nat.le_of_eq hvalid.remaining_eq.symm
  rw [forEachWithIndex, Iter.visit_eq f 0 hvalid hfuel, Iter.map_unseen_iter]

variable [EquivBEq K]

/-- Whichever way a reachable table is walked over, the pairs come in the order of its traversal, and the number still to come is known. -/
theorem walks_agree {t : Table K V} (h : t.Reachable) : t.WalksAgree := by
  have hlayout := (sound_of_reachable h).layout
  have hwrites (f : Nat → V → V) := Iter.writes_iter (f := f) hlayout
  have hpasses (f : Nat → V → V) := Cursor.passes_start (f := f) hlayout
  have hstands {α : Type} (part : K × V → α) (n : Nat) : Iter.Stands t.toList n ((Iter.reading part).after t.iter n) :=
    Walker.inv_after (fun n it h => h.step.2) (Iter.stands_iter hlayout) n
  refine
    { exists_traversal := ⟨_, isTraversal_locatedOf hlayout.wellFormed, (Iter.map_unseen_iter t).symm⟩
      length_eq := hlayout.length_toList
      reads := fun part => Iter.yields_reading part (Iter.stands_iter hlayout)
      copies := fun part n => ⟨(hstands part n).toList_eq, Iter.yields_reading part (hstands part n).copy⟩
      writes := fun part f => ⟨Iter.yields_writing part (hwrites f), fun n =>
        (Walker.inv_after (fun n it h => h.step.2) (hwrites f) n).toList_eq⟩
      passes := fun f => ⟨Cursor.yields_passing (hpasses f), fun n =>
        (Walker.inv_after (fun n c h => h.step.2) (hpasses f) n).toList_eq⟩
      forEach_eq := fun f => (forEachWithIndex_eq hlayout fun k v _ => f k v).trans
        (forM_zipIdx (fun p : K × V => f p.1 p.2) t.toList 0)
      forEachWithIndex_eq := forEachWithIndex_eq hlayout
      handles_eq := by rw [handles, toList_iter hlayout]
      lookup := ?_ }
  intro p hp
  have hentry : t.getEntry? p.1 = some p := by
    rw [getEntry?_eq (models_toList hlayout)]
    exact PairMap.find?_of_mem (sameKey_equivalence t.hash) (distinct_toList hlayout) hp
      ((sameKey_equivalence t.hash).refl p.1)
  refine ⟨hentry, ?_⟩
  rw [get?, hentry]
  rfl

/-- Two chains, one of which was left with two vacant cells by a removal. -/
theorem walks_agree_spare_cells : ∃ t : Table Nat Nat,
    t = (((build (fun k => UInt64.ofNat (k % 2)) .standard 0).extend
      [(1, 10), (2, 20), (3, 30), (4, 40), (5, 50)]).remove 1).2 ∧
    t.Reachable ∧ (t.slots.map fun s => match s with | .chained c => c.cells.size | _ => 0).toList.take 2 = [2, 4] ∧
      t.toList = [(2, 20), (4, 40), (5, 50), (3, 30)] ∧ t.WalksAgree := by
  refine ⟨_, rfl, ?_, ?_, ?_, walks_agree ?_⟩
  · exact .step (.made (.collect _ _ 0)) (.remove 1)
  · decide +kernel
  · decide +kernel
  · exact .step (.made (.collect _ _ 0)) (.remove 1)

end Table

end FlatTable

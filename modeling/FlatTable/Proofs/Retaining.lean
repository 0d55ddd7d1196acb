import FlatTable.Proofs.Operations
import FlatTable.Proofs.Walk

/-!
# Filtering with a callback

`Table.shown` lists the pairs that a filter shows to its callback, read off a callback that keeps a record of them. A filter that runs to its end shows every pair once and leaves what `visit` leaves of them. One that the callback breaks off leaves the table that it would have left if the callback had kept the pair of that call and all pairs after it.
-/

namespace FlatTable

universe u v w

variable {K : Type u} {V : Type v} {σ : Type w}

/-- The callback that also lists the pairs it is shown. -/
def Callback.logged (f : Callback σ K V) : Callback (σ × List (K × V)) K V := fun s k v =>
  let (state, v', verdict) := f s.1 k v
  ((state, s.2 ++ [(k, v)]), v', verdict)

/-- The callback with its calls counted from zero: on call `i` it changes the value alike but keeps the pair, and from then on it keeps all pairs as they are. -/
def Callback.keepingFrom (f : Callback σ K V) (i : Nat) : Callback (σ × Nat) K V := fun s k v =>
  if i < s.2 then ((s.1, s.2 + 1), v, .keep)
  else
    let (state, v', verdict) := f s.1 k v
    ((state, s.2 + 1), v', if s.2 < i then verdict else .keep)

/-- The pairs that a filter shows to its callback, in order. -/
def Table.shown (t : Table K V) (f : Callback σ K V) (s : σ) : List (K × V) := (t.retain f.logged (s, [])).1.state.2

/-- The calls of a cursor that walks are made of. A call may be without a result, and then the walk is too. -/
structure Cursor.Calls (K : Type u) (V : Type v) where
  next : Cursor K V → Option (Except TableError (K × V) × Cursor K V)
  modifyLast : Cursor K V → (V → V) → Option (Cursor K V)
  remove : Cursor K V → Option (Except TableError (K × V) × Cursor K V)

/-- The calls as they are, which always have results. -/
def Cursor.Calls.plain : Calls K V where
  next c := some c.next
  modifyLast c f := some (c.modifyLast f)
  remove c := some c.remove

@[simp] theorem Cursor.Calls.plain_next (c : Cursor K V) : plain.next c = some c.next := rfl

@[simp] theorem Cursor.Calls.plain_modifyLast (c : Cursor K V) (f : V → V) :
    plain.modifyLast c f = some (c.modifyLast f) := rfl

@[simp] theorem Cursor.Calls.plain_remove (c : Cursor K V) : plain.remove c = some c.remove := rfl

/-- The walk of a filter with nothing taken for granted: none if a call has no result, if the pair returned last cannot be removed, or if the rounds do not suffice. -/
def Cursor.Calls.retain (calls : Calls K V) (f : Callback σ K V) : (rounds : Nat) → σ → Cursor K V →
    Option (Walked σ × Cursor K V)
  | 0, _, _ => none
  | rounds + 1, s, c =>
    match calls.next c with
    | none => none
    | some (.error _, c) => some (⟨s, false⟩, c)
    | some (.ok (k, v), c) =>
      let (s, v, verdict) := f s k v
      (calls.modifyLast c fun _ => v).bind fun c =>
        match verdict with
        | .keep => calls.retain f rounds s c
        | .remove =>
          match calls.remove c with
          | some (.ok _, c) => calls.retain f rounds s c
          | _ => none
        | .abort => some (⟨s, true⟩, c)

/-- A filter with as many rounds as there are pairs, and one to find that there are no more. -/
def Cursor.Calls.retainAll (calls : Calls K V) (t : Table K V) (f : Callback σ K V) (s : σ) :
    Option (Walked σ × Table K V) :=
  (calls.retain f (t.size + 1) s (.start t)).map fun r => (r.1, r.2.table)

/-- A filter that must not fail to remove a pair it was just given, and must end by itself. -/
def Table.retain? (t : Table K V) (f : Callback σ K V) (s : σ) : Option (Walked σ × Table K V) :=
  Cursor.Calls.plain.retainAll t f s

/-! ### The calls of a callback -/

section Calls

variable {f : Callback σ K V} {s s' : σ} {k : K} {v v' : V} {verdict : Verdict} {i n : Nat}

theorem Callback.logged_eq (h : f s k v = (s', v', verdict)) (log : List (K × V)) :
    f.logged (s, log) k v = ((s', log ++ [(k, v)]), v', verdict) := by
  rw [logged, h]

theorem Callback.keepingFrom_before (h : f s k v = (s', v', verdict)) (hn : n < i) :
    f.keepingFrom i (s, n) k v = ((s', n + 1), v', verdict) := by
  rw [keepingFrom, if_neg (Nat.not_lt.mpr (Nat.le_of_lt hn)), h]
  dsimp only
  rw [if_pos hn]

theorem Callback.keepingFrom_at (h : f s k v = (s', v', verdict)) :
    f.keepingFrom i (s, i) k v = ((s', i + 1), v', .keep) := by
  rw [keepingFrom, if_neg (Nat.lt_irrefl i), h]
  dsimp only
  rw [if_neg (Nat.lt_irrefl i)]

theorem Callback.keepingFrom_after (hn : i < n) : f.keepingFrom i (s, n) k v = ((s, n + 1), v, .keep) := by
  rw [keepingFrom, if_pos hn]

end Calls

/-! ### Writing a value back -/

theorem modify_same {α : Type u} {cells : Array α} {i : Nat} {f : α → α} (h : ∀ a, cells[i]? = some a → f a = a) :
    cells.modify i f = cells := by
  apply Array.ext_getElem?
  intro j
  rw [Array.getElem?_modify]
  split
  · subst j
    rcases hi : cells[i]? with - | a
    · rfl
    · rw [Option.map_some, h a hi]
  · rfl

theorem Chain.modifyValue_same {c : Chain K V} {i : Nat} {b : Bucket K V} (hb : c.get? i = some b) :
    c.modifyValue i (fun _ => b.value) = c := by
  refine congrArg Chain.mk (modify_same ?_)
  intro cell hcell
  rw [get?, hcell] at hb
  obtain rfl : cell = some b := hb
  rfl

theorem Slot.modifyValue_same {s : Slot K V} {loc : Location} {b : Bucket K V} (hb : s.bucketAt? loc = some b) :
    s.modifyValue (fun _ => b.value) loc = s := by
  obtain ⟨i, rfl, rfl⟩ | ⟨i, j, c, rfl, rfl, hj⟩ := shape_of_bucketAt? hb
  · rfl
  · exact congrArg chained (Chain.modifyValue_same hj)

theorem Table.modifyValueAt_same {t : Table K V} {loc : Location} {b : Bucket K V} (hb : t.bucketAt? loc = some b) :
    t.modifyValueAt loc (fun _ => b.value) = t := by
  obtain ⟨s, hs, hat⟩ := Option.bind_eq_some_iff.mp hb
  have hslots : t.slots.modify loc.slot (Slot.modifyValue (fun _ => b.value) loc) = t.slots := by
    apply modify_same
    intro s' hs'
    obtain rfl : s = s' := Option.some.inj (hs.symm.trans hs')
    exact Slot.modifyValue_same hat
  rw [modifyValueAt, hslots]

namespace Cursor

/-- A pair that is returned and given back its own value leaves the table as it was. -/
theorem modifyLast_next {c c' : Cursor K V} {k : K} {v : V} (hnext : c.next = (.ok (k, v), c')) :
    (c'.modifyLast fun _ => v).table = c.table := by
  rw [next] at hnext
  split at hnext
  · simp at hnext
  · split at hnext
    · simp at hnext
    · rename_i loc position cell hseek
      split at hnext
      · simp at hnext
      · rename_i b hb
        obtain ⟨hpair, rfl⟩ := Prod.mk.inj hnext
        obtain ⟨rfl, rfl⟩ := Prod.mk.inj (Except.ok.inj hpair)
        exact Table.modifyValueAt_same hb

/-! ### What may fail -/

/-- A walk never fails to remove the pair it was just given, and ends by itself. -/
theorem Calls.retain_plain [BEq K] [PartialEquivBEq K] (f : Callback σ K V) (fuel : Nat) (s : σ) {c : Cursor K V}
    (h : c.Valid) (hfuel : c.unseen.length ≤ fuel) :
    Calls.plain.retain f (fuel + 1) s c = some (Cursor.retain f fuel s c) := by
  induction fuel generalizing s c with
  | zero =>
    have hnil : c.unseen = [] := List.eq_nil_of_length_eq_zero (by omega)
    rw [Calls.retain, plain_next, next_of_nil h hnil]
    rfl
  | succ fuel ih =>
    rw [Calls.retain, plain_next, Cursor.retain]
    rcases hunseen : c.unseen with - | ⟨b, rest⟩
    · rw [next_of_nil h hunseen]
    · rw [hunseen, List.length_cons] at hfuel
      obtain ⟨c₁, hnext, hround⟩ := exists_round h hunseen
      rw [hnext]
      dsimp only
      rcases f s b.key b.value with ⟨s', v, verdict⟩
      obtain ⟨hvalid, -, hrest, c₃, hremove, hvalid₃, -, hunseen₃⟩ := hround v
      rw [plain_modifyLast, Option.bind_some]
      cases verdict with
      | keep => exact ih s' hvalid (by rw [hrest]; omega)
      | remove =>
        dsimp only
        rw [plain_remove, hremove]
        exact ih s' hvalid₃ (by rw [hunseen₃.length_eq]; omega)
      | abort => rfl

/-! ### What is shown -/

theorem retain_logged (f : Callback σ K V) (fuel : Nat) (s : σ) (log : List (K × V)) (c : Cursor K V) :
    (Cursor.retain f.logged fuel (s, log) c).2 = (Cursor.retain f fuel s c).2 ∧
      (Cursor.retain f.logged fuel (s, log) c).1.state.1 = (Cursor.retain f fuel s c).1.state ∧
      (Cursor.retain f.logged fuel (s, log) c).1.aborted = (Cursor.retain f fuel s c).1.aborted := by
  induction fuel generalizing s log c with
  | zero => exact ⟨rfl, rfl, rfl⟩
  | succ fuel ih =>
    rw [Cursor.retain, Cursor.retain]
    rcases c.next with ⟨e | ⟨k, v⟩, c₁⟩
    · exact ⟨rfl, rfl, rfl⟩
    · dsimp only
      rcases hf : f s k v with ⟨s', v', verdict⟩
      rw [Callback.logged_eq hf]
      cases verdict with
      | keep => exact ih s' _ _
      | remove => exact ih s' _ _
      | abort => exact ⟨rfl, rfl, rfl⟩

end Cursor

/-- Of the pairs that a visit is given it shows a first part, and leaves the others as they are. -/
theorem visit_logged (f : Callback σ K V) (s : σ) (log pairs : List (K × V)) : ∃ calls rest, pairs = calls ++ rest ∧
    (visit f.logged (s, log) pairs).walked =
      ⟨((visit f s calls).walked.state, log ++ calls), (visit f s calls).walked.aborted⟩ ∧
    (visit f.logged (s, log) pairs).left = (visit f s calls).left ++ rest ∧
    ((visit f s calls).walked.aborted = false → rest = []) := by
  induction pairs generalizing s log with
  | nil => exact ⟨[], [], rfl, by simp [visit], rfl, fun _ => rfl⟩
  | cons p pairs ih =>
    rcases hf : f s p.1 p.2 with ⟨s', v, verdict⟩
    have hlogged : f.logged (s, log) p.1 p.2 = ((s', log ++ [p]), v, verdict) := Callback.logged_eq hf log
    obtain ⟨calls, rest, rfl, hwalked, hleft, hrest⟩ := ih s' (log ++ [p])
    cases verdict with
    | keep =>
      refine ⟨p :: calls, rest, rfl, ?_⟩
      rw [visit_keep _ hlogged, visit_keep _ hf]
      refine ⟨?_, congrArg ((p.1, v) :: ·) hleft, hrest⟩
      rw [hwalked, List.append_assoc]
      rfl
    | remove =>
      refine ⟨p :: calls, rest, rfl, ?_⟩
      rw [visit_remove _ hlogged, visit_remove _ hf]
      refine ⟨?_, hleft, hrest⟩
      rw [hwalked, List.append_assoc]
      rfl
    | abort =>
      refine ⟨[p], calls ++ rest, rfl, ?_⟩
      rw [visit_abort _ hlogged, visit_abort _ hf]
      exact ⟨rfl, rfl, fun h => Bool.noConfusion h⟩

namespace Cursor

/-! ### Breaking off -/

theorem retain_keepingFrom_late (f : Callback σ K V) {i n : Nat} (hlate : i < n) (fuel : Nat) (s : σ)
    (c : Cursor K V) :
    (Cursor.retain (f.keepingFrom i) fuel (s, n) c).1.aborted = false ∧
      (Cursor.retain (f.keepingFrom i) fuel (s, n) c).2.table = c.table := by
  -- Each round gives the pair its own value back, so only the cursor moves on.
  induction fuel generalizing n c with
  | zero => exact ⟨rfl, rfl⟩
  | succ fuel ih =>
    have htable := table_next c
    rw [Cursor.retain]
    rcases hnext : c.next with ⟨e | ⟨k, v⟩, c₁⟩
    · rw [hnext] at htable
      exact ⟨rfl, htable⟩
    · dsimp only
      rw [Callback.keepingFrom_after hlate, ← modifyLast_next hnext]
      exact ih (Nat.lt_succ_of_lt hlate) _

/-- A filter that is broken off on call `i` leaves the table that it leaves when it keeps all pairs from that call on. -/
theorem retain_keepingFrom (f : Callback σ K V) (i fuel : Nat) (s : σ) (log : List (K × V)) (c : Cursor K V)
    (haborted : (Cursor.retain f fuel s c).1.aborted = true)
    (hcalls : (Cursor.retain f.logged fuel (s, log) c).1.state.2.length = i + 1) :
    log.length ≤ i ∧ (Cursor.retain (f.keepingFrom i) fuel (s, log.length) c).1.aborted = false ∧
      (Cursor.retain (f.keepingFrom i) fuel (s, log.length) c).2.table = (Cursor.retain f fuel s c).2.table := by
  -- The record and the count of calls keep step: the next call has the number of the calls recorded.
  induction fuel generalizing s log c with
  | zero => simp [Cursor.retain] at haborted
  | succ fuel ih =>
    rw [Cursor.retain] at haborted hcalls
    rw [Cursor.retain, Cursor.retain]
    rcases hnext : c.next with ⟨e | ⟨k, v⟩, c₁⟩ <;> rw [hnext] at haborted hcalls
    · simp at haborted
    · rcases hf : f s k v with ⟨s', v', verdict⟩
      have hlonger : (log ++ [(k, v)]).length = log.length + 1 := by
        rw [List.length_append]
        rfl
      dsimp only at haborted hcalls ⊢
      rw [hf] at haborted ⊢
      rw [Callback.logged_eq hf] at hcalls
      cases verdict with
      | keep =>
        obtain ⟨hlt, hlater⟩ := ih s' (log ++ [(k, v)]) _ haborted hcalls
        rw [hlonger] at hlt hlater
        rw [Callback.keepingFrom_before hf hlt]
        exact ⟨Nat.le_of_lt hlt, hlater⟩
      | remove =>
        obtain ⟨hlt, hlater⟩ := ih s' (log ++ [(k, v)]) _ haborted hcalls
        rw [hlonger] at hlt hlater
        rw [Callback.keepingFrom_before hf hlt]
        exact ⟨Nat.le_of_lt hlt, hlater⟩
      | abort =>
        obtain rfl : log.length = i := Nat.succ.inj (hlonger.symm.trans hcalls)
        rw [Callback.keepingFrom_at hf]
        exact ⟨Nat.le_refl _, retain_keepingFrom_late f (Nat.lt_succ_self _) fuel s' _⟩

end Cursor

namespace Table

/-! ### Filtering a table -/

theorem retain_logged (t : Table K V) (f : Callback σ K V) (s : σ) : (t.retain f.logged (s, [])).2 = (t.retain f s).2 ∧
    (t.retain f s).1 = ⟨(t.retain f.logged (s, [])).1.state.1, (t.retain f.logged (s, [])).1.aborted⟩ := by
  obtain ⟨hcursor, hstate, haborted⟩ := Cursor.retain_logged f t.size s [] (.start t)
  have hwalked : (t.retain f s).1 = ⟨(t.retain f s).1.state, (t.retain f s).1.aborted⟩ := rfl
  refine ⟨congrArg Cursor.table hcursor, hwalked.trans ?_⟩
  exact congr (congrArg Walked.mk hstate.symm) haborted.symm

theorem capacity_removeAt? (t : Table K V) (loc : Location) : (t.removeAt? loc).2.capacity = t.capacity := by
  rw [removeAt?]
  split
  · rfl
  · exact Array.size_modify ..

theorem capacity_retain (t : Table K V) (f : Callback σ K V) (s : σ) : (t.retain f s).2.capacity = t.capacity := by
  refine Cursor.retain_preserves (P := fun u => u.capacity = t.capacity) ?_ ?_ f t.size s (c := .start t) rfl
  · intro u loc g hu
    exact (Array.size_modify ..).trans hu
  · intro u loc hu
    exact (capacity_removeAt? u loc).trans hu

variable [BEq K] [EquivBEq K] {t : Table K V}

theorem retain?_eq (h : t.LayoutInvariant) (f : Callback σ K V) (s : σ) : t.retain? f s = some (t.retain f s) := by
  have hunseen : (Cursor.start t).unseen.length ≤ t.size := by
    rw [Cursor.unseen_start]
    exact Nat.le_of_eq h.size_eq.symm
  rw [retain?, Cursor.Calls.retainAll, Cursor.Calls.retain_plain f t.size s (Cursor.valid_start h) hunseen]
  rfl

theorem exists_unshown (h : t.LayoutInvariant) (f : Callback σ K V) (s : σ) : ∃ rest,
    (t.shown f s ++ rest).Perm t.toList ∧ (t.retain f s).1 = (visit f s (t.shown f s)).walked ∧
      (t.retain f s).2.toList.Perm ((visit f s (t.shown f s)).left ++ rest) ∧
      ((t.retain f s).1.aborted = false → rest = []) := by
  obtain ⟨pairs, hperm, hwalked, hleft⟩ := retain_eq_visit h f.logged (s, [])
  obtain ⟨calls, rest, rfl, hvisited, hstays, hrest⟩ := visit_logged f s [] pairs
  obtain ⟨htable, hsame⟩ := retain_logged t f s
  have hshown : t.shown f s = calls := by
    rw [shown, hwalked, hvisited]
    rfl
  rw [hwalked, hvisited] at hsame
  rw [htable, hstays] at hleft
  rw [hshown]
  refine ⟨rest, hperm, hsame, hleft, fun hdone => hrest ?_⟩
  rw [hsame] at hdone
  exact hdone

theorem exists_last_call (h : t.LayoutInvariant) {f : Callback σ K V} {s : σ}
    (haborted : (t.retain f s).1.aborted = true) : ∃ i, (t.shown f s).length = i + 1 := by
  obtain ⟨rest, -, hwalked, -⟩ := exists_unshown h f s
  refine Nat.exists_eq_succ_of_ne_zero fun hzero => ?_
  rw [hwalked, List.eq_nil_of_length_eq_zero hzero] at haborted
  exact Bool.noConfusion haborted

/-- A filter shows every pair to its callback once, unless that aborts; it leaves the pairs that are kept, with the values that the callback left in them, and those not shown, in a table of the same capacity that keeps its layout. If the callback aborts on a call, the table is the one that a filter leaves that keeps the pair of that call, with the value left in it, and all pairs after it as they are. -/
theorem retain_is_exact_filter (h : t.LayoutInvariant) (f : Callback σ K V) (s : σ) :
    (∃ rest, (t.shown f s ++ rest).Perm t.toList ∧ (t.retain f s).1 = (visit f s (t.shown f s)).walked ∧
      (t.retain f s).2.toList.Perm ((visit f s (t.shown f s)).left ++ rest) ∧
      ((t.retain f s).1.aborted = false → rest = [])) ∧
    (t.retain f.logged (s, [])).2 = (t.retain f s).2 ∧ t.retain? f s = some (t.retain f s) ∧
    (t.retain f s).2.capacity = t.capacity ∧ (t.retain f s).2.LayoutInvariant ∧
    ((t.retain f s).1.aborted = true → ∃ i, (t.shown f s).length = i + 1 ∧
      (t.retain (f.keepingFrom i) (s, 0)).1.aborted = false ∧
      (t.retain (f.keepingFrom i) (s, 0)).2 = (t.retain f s).2) := by
  refine ⟨exists_unshown h f s, (retain_logged t f s).1, retain?_eq h f s, capacity_retain t f s,
    (keeps_retain t f s).layout h, ?_⟩
  intro haborted
  obtain ⟨i, hcalls⟩ := exists_last_call h haborted
  exact ⟨i, hcalls, (Cursor.retain_keepingFrom f i t.size s [] (.start t) haborted hcalls).2⟩

/-- Three colliding pairs; the callback takes the first one out, changes the value of the one that moves up, and aborts there. -/
theorem retain_is_exact_filter_broken_off : ∃ t : Table Nat Nat, ∃ f : Callback Nat Nat Nat, ∃ i,
    t = (build (fun _ => 7) .standard 0).extend [(1, 10), (2, 20), (3, 30)] ∧ t.LayoutInvariant ∧
      f = (fun n k v => (n + 1, v + k, if n = 0 then .remove else .abort)) ∧
      t.shown f 0 = [(1, 10), (3, 30)] ∧ (t.retain f 0).1.aborted = true ∧ i = 1 ∧
      (t.retain f 0).2.toList = [(3, 33), (2, 20)] ∧ (t.retain f 0).2.LayoutInvariant ∧
      (t.retain f 0).2.capacity = t.capacity ∧ (t.retain (f.keepingFrom i) (0, 0)).1.aborted = false ∧
      (t.retain (f.keepingFrom i) (0, 0)).2 = (t.retain f 0).2 := by
  have hlayout := layoutInvariant_extend_build (V := Nat) (fun _ : Nat => 7) .standard 0 [(1, 10), (2, 20), (3, 30)]
  obtain ⟨-, -, -, hcapacity, hlayout', hbroken⟩ :=
    retain_is_exact_filter hlayout (fun n k v => (n + 1, v + k, if n = 0 then .remove else .abort)) 0
  obtain ⟨i, hcalls, hdone, htable⟩ := hbroken (by decide +kernel)
  have hi : i = 1 := Nat.succ.inj (hcalls.symm.trans (by decide +kernel))
  exact ⟨_, _, i, rfl, hlayout, rfl, by decide +kernel, by decide +kernel, hi, by decide +kernel, hlayout', hcapacity,
    hdone, htable⟩

end Table

end FlatTable

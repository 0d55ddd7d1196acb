import FlatTable.Proofs.Cursor
import FlatTable.Proofs.PairMap
import FlatTable.Table.Retain

/-!
# Walks with a callback

`visit` is what a callback does to a list of pairs that it is shown in order. Retaining and sweeping show it the unseen pairs of a cursor, in an order that depends on which of them are removed; the pairs seen before stay as they are.
-/

namespace FlatTable

universe u v w

variable {K : Type u} {V : Type v} {σ : Type w}

/-- What showing pairs to a callback comes to. -/
structure Visit (σ : Type w) (K : Type u) (V : Type v) where
  walked : Walked σ
  /-- The pairs shown, with the values left in them. -/
  met : List (K × V)
  removed : List (K × V)
  /-- The pairs that stay, those not shown included. -/
  left : List (K × V)

/-- Shows pairs to a callback in order, until it aborts. -/
def visit (f : Callback σ K V) : σ → List (K × V) → Visit σ K V
  | s, [] => ⟨⟨s, false⟩, [], [], []⟩
  | s, p :: ps =>
    let (s, v, verdict) := f s p.1 p.2
    match verdict with
    | .keep =>
      let r := visit f s ps
      { r with met := (p.1, v) :: r.met, left := (p.1, v) :: r.left }
    | .remove =>
      let r := visit f s ps
      { r with met := (p.1, v) :: r.met, removed := (p.1, v) :: r.removed }
    | .abort => ⟨⟨s, true⟩, [(p.1, v)], [], (p.1, v) :: ps⟩

/-- What a sweep reports of a visit. -/
def Visit.sweep? (r : Visit σ K V) : Option (Sweep K V) :=
  if r.walked.aborted then none else some ⟨r.met, r.removed.map .ok, .exhausted⟩

section Visits

variable {f : Callback σ K V} {s s' : σ} {p : K × V} {v : V} (ps : List (K × V))

theorem visit_keep (h : f s p.1 p.2 = (s', v, .keep)) : visit f s (p :: ps) =
    { visit f s' ps with met := (p.1, v) :: (visit f s' ps).met, left := (p.1, v) :: (visit f s' ps).left } := by
  rw [visit, h]

theorem visit_remove (h : f s p.1 p.2 = (s', v, .remove)) : visit f s (p :: ps) =
    { visit f s' ps with met := (p.1, v) :: (visit f s' ps).met, removed := (p.1, v) :: (visit f s' ps).removed } := by
  rw [visit, h]

theorem visit_abort (h : f s p.1 p.2 = (s', v, .abort)) :
    visit f s (p :: ps) = ⟨⟨s', true⟩, [(p.1, v)], [], (p.1, v) :: ps⟩ := by
  rw [visit, h]

end Visits

namespace Cursor

variable [BEq K] [PartialEquivBEq K]

/-- One round of a walk: the next bucket is returned, its value replaced, and it may be removed. -/
theorem exists_round {c : Cursor K V} (h : c.Valid) {b : Bucket K V} {rest : List (Bucket K V)}
    (hunseen : c.unseen = b :: rest) : ∃ c₁, c.next = (.ok (b.key, b.value), c₁) ∧
      ∀ v, (c₁.modifyLast fun _ => v).Valid ∧
        (c₁.modifyLast fun _ => v).seen = c.seen ++ [b.mapValue fun _ => v] ∧
        (c₁.modifyLast fun _ => v).unseen = rest ∧
        ∃ c₃, (c₁.modifyLast fun _ => v).remove = (.ok (b.key, v), c₃) ∧ c₃.Valid ∧ c₃.seen = c.seen ∧
          c₃.unseen.Perm rest := by
  obtain ⟨c₁, loc, hnext, hvalid, htable, hseen, hrest, hlast, hb⟩ := next_of_cons h hunseen
  refine ⟨c₁, hnext, fun v => ?_⟩
  rw [← htable] at hb
  obtain ⟨s, hs, hs', hunseen', hlast', hb', hvalid'⟩ := modifyLast_of_last hvalid hlast hb fun _ => v
  obtain ⟨rfl, -⟩ := List.append_inj' (hs.symm.trans hseen) rfl
  refine ⟨hvalid', hs', hunseen'.trans hrest, ?_⟩
  obtain ⟨s', c₃, hs'', hremove, -, hseen₃, hunseen₃, -, hvalid₃⟩ := remove_of_last hvalid' hlast' hb'
  obtain ⟨rfl, -⟩ := List.append_inj' (hs''.symm.trans hs') rfl
  refine ⟨c₃, hremove, hvalid₃, hseen₃, hunseen₃.trans ?_⟩
  rw [hunseen', hrest]

omit [BEq K] [PartialEquivBEq K] in
/-- Sweeping leads where retaining does; it only reports more. -/
theorem sweepFrom_snd (f : Callback σ K V) (fuel : Nat) (s : σ) (c : Cursor K V) (seen : List (K × V))
    (removed : List (Except TableError (K × V))) :
    (Cursor.sweepFrom f fuel s c seen removed).2 = (Cursor.retain f fuel s c).2 := by
  induction fuel generalizing s c seen removed with
  | zero => rfl
  | succ fuel ih =>
    rw [Cursor.sweepFrom, Cursor.retain]
    rcases c.next with ⟨e | ⟨k, v⟩, c₁⟩
    · rfl
    · dsimp only
      rcases f s k v with ⟨s', v', verdict⟩
      cases verdict with
      | keep => exact ih s' _ _ _
      | remove => exact ih s' _ _ _
      | abort => rfl

/-- A walk shows the callback each unseen pair once and leaves what the visit leaves; a sweep reports the visit behind what was gathered before. -/
theorem exists_visit (f : Callback σ K V) (fuel : Nat) (s : σ) {c : Cursor K V} (h : c.Valid)
    (hfuel : c.unseen.length ≤ fuel) : ∃ pairs, pairs.Perm (c.unseen.map Bucket.toPair) ∧
      (Cursor.retain f fuel s c).1 = (visit f s pairs).walked ∧ (Cursor.retain f fuel s c).2.Valid ∧
      (Cursor.retain f fuel s c).2.table.toList.Perm (c.seen.map Bucket.toPair ++ (visit f s pairs).left) ∧
      ∀ seen removed, (Cursor.sweepFrom f fuel s c seen removed).1 =
        if (visit f s pairs).walked.aborted then none
        else some ⟨seen.reverse ++ (visit f s pairs).met, removed.reverse ++ (visit f s pairs).removed.map .ok,
          .exhausted⟩ := by
  -- A removal puts the unseen pairs in another order, so the order of the visit comes out of the induction.
  induction fuel generalizing s c with
  | zero =>
    have hnil : c.unseen = [] := List.eq_nil_of_length_eq_zero (by omega)
    refine ⟨[], by rw [hnil]; rfl, rfl, h, ?_, fun seen removed => by simp [Cursor.sweepFrom, visit]⟩
    rw [Cursor.retain, toList_eq, hnil]
    rfl
  | succ fuel ih =>
    rcases hunseen : c.unseen with - | ⟨b, rest⟩
    · refine ⟨[], List.Perm.refl _, ?_⟩
      simp only [Cursor.retain, Cursor.sweepFrom, next_of_nil h hunseen]
      refine ⟨rfl, h, ?_, fun seen removed => by simp [visit]⟩
      rw [toList_eq, hunseen]
      rfl
    · rw [hunseen, List.length_cons] at hfuel
      obtain ⟨c₁, hnext, hround⟩ := exists_round h hunseen
      rcases hf : f s b.key b.value with ⟨s', v, verdict⟩
      obtain ⟨hvalid, hseen, hrest, c₃, hremove, hvalid₃, hseen₃, hunseen₃⟩ := hround v
      simp only [Cursor.retain, Cursor.sweepFrom, hnext, hf]
      cases verdict with
      | keep =>
        obtain ⟨pairs, hperm, hwalked, hvalid', hleft, hreport⟩ := ih s' hvalid (by rw [hrest]; omega)
        rw [hrest] at hperm
        rw [hseen, List.map_append, List.append_assoc] at hleft
        refine ⟨b.toPair :: pairs, hperm.cons _, ?_⟩
        rw [visit_keep pairs hf]
        refine ⟨hwalked, hvalid', hleft, fun seen removed => ?_⟩
        rw [hreport]
        simp [Bucket.toPair]
      | remove =>
        simp only [hremove]
        obtain ⟨pairs, hperm, hwalked, hvalid', hleft, hreport⟩ :=
          ih s' hvalid₃ (by rw [hunseen₃.length_eq]; omega)
        rw [hseen₃] at hleft
        refine ⟨b.toPair :: pairs, (hperm.trans (hunseen₃.map _)).cons _, ?_⟩
        rw [visit_remove pairs hf]
        refine ⟨hwalked, hvalid', hleft, fun seen removed => ?_⟩
        rw [hreport]
        simp [Bucket.toPair]
      | abort =>
        refine ⟨b.toPair :: rest.map Bucket.toPair, List.Perm.refl _, ?_⟩
        rw [visit_abort _ hf]
        refine ⟨rfl, hvalid, ?_, fun seen removed => rfl⟩
        rw [toList_eq, hseen, hrest, List.map_append, List.append_assoc]
        rfl

/-! ### What walks keep -/

omit [BEq K] [PartialEquivBEq K] in
/-- What writing to a value and removing a pair preserve, a walk preserves. -/
theorem retain_preserves {P : Table K V → Prop} (hwrite : ∀ t loc (f : V → V), P t → P (t.modifyValueAt loc f))
    (hremove : ∀ t loc, P t → P (t.removeAt? loc).2) (f : Callback σ K V) (fuel : Nat) (s : σ) {c : Cursor K V}
    (h : P c.table) : P (Cursor.retain f fuel s c).2.table := by
  induction fuel generalizing s c with
  | zero => exact h
  | succ fuel ih =>
    have hnext := table_next c
    rw [Cursor.retain]
    rcases hc : c.next with ⟨e | ⟨k, v⟩, c₁⟩ <;> rw [hc] at hnext <;> rw [← hnext] at h
    · exact h
    · dsimp only
      rcases f s k v with ⟨s', v', verdict⟩
      have hwritten := modifyLast_preserves hwrite (fun _ => v') h
      cases verdict with
      | keep => exact ih s' hwritten
      | remove => exact ih s' (remove_preserves hremove hwritten)
      | abort => exact hwritten

theorem keeps_retain (f : Callback σ K V) (fuel : Nat) (s : σ) (c : Cursor K V) :
    c.table.Keeps (Cursor.retain f fuel s c).2.table :=
  retain_preserves (fun t loc f h => h.trans (Table.keeps_modifyValueAt t loc f))
    (fun t loc h => h.trans (Table.keeps_removeAt? t loc)) f fuel s (Table.Keeps.refl c.table)

theorem keeps_sweep (c : Cursor K V) (f : Callback σ K V) (s : σ) : c.table.Keeps (c.sweep f s).2.table := by
  rw [sweep, sweepFrom_snd]
  exact keeps_retain f (c.remaining + 1) s c

/-! ### Walks over a whole table -/

theorem sweep_eq_visit {t : Table K V} (h : t.LayoutInvariant) (f : Callback σ K V) (s : σ) :
    ∃ pairs, pairs.Perm t.toList ∧ ((start t).sweep f s).1 = (visit f s pairs).sweep? ∧
      ((start t).sweep f s).2.table.LayoutInvariant ∧
      ((start t).sweep f s).2.table.toList.Perm (visit f s pairs).left := by
  have hvalid := valid_start h
  obtain ⟨pairs, hperm, -, hvalid', hleft, hreport⟩ := exists_visit f ((start t).remaining + 1) s hvalid
    (by rw [remaining_eq hvalid]; exact Nat.le_succ _)
  rw [unseen_start] at hperm
  rw [seen_start, List.map_nil, List.nil_append] at hleft
  rw [sweep, sweepFrom_snd]
  exact ⟨pairs, hperm, hreport [] [], hvalid'.layout, hleft⟩

end Cursor

namespace Table

variable [BEq K] [PartialEquivBEq K]

theorem keeps_retain (t : Table K V) (f : Callback σ K V) (s : σ) : t.Keeps (t.retain f s).2 :=
  Cursor.keeps_retain f t.size s (.start t)

theorem retain_eq_visit {t : Table K V} (h : t.LayoutInvariant) (f : Callback σ K V) (s : σ) :
    ∃ pairs, pairs.Perm t.toList ∧ (t.retain f s).1 = (visit f s pairs).walked ∧
      (t.retain f s).2.toList.Perm (visit f s pairs).left := by
  obtain ⟨pairs, hperm, hwalked, -, hleft, -⟩ := Cursor.exists_visit f t.size s (Cursor.valid_start h)
    (Nat.le_of_eq (by rw [Cursor.unseen_start, h.size_eq]))
  rw [Cursor.unseen_start] at hperm
  rw [Cursor.seen_start, List.map_nil, List.nil_append] at hleft
  exact ⟨pairs, hperm, hwalked, hleft⟩

end Table

end FlatTable

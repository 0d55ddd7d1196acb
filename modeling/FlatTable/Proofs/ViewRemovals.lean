import FlatTable.Proofs.Equality
import FlatTable.Proofs.Retaining

/-!
# Removals through views

A removal by value walks to the first pair with an equal value and takes that one out; nothing is removed before it, so the walk has met the pairs in traversal order. The other removals are filters: what is left of a filter are the pairs that its judge lets stay, and those that it was not shown.
-/

namespace FlatTable

variable {K V σ : Type}

/-! ### Walking to a value -/

/-- The next pair is returned and can be taken out; the pairs seen and those still unseen are left then. -/
theorem Cursor.exists_removal [BEq K] [PartialEquivBEq K] {c : Cursor K V} (h : c.Valid) {b : Bucket K V}
    {rest : List (Bucket K V)} (hunseen : c.unseen = b :: rest) : ∃ c₁ c₂, c.next = (.ok b.toPair, c₁) ∧ c₁.Valid ∧
      c₁.table = c.table ∧ c₁.seen = c.seen ++ [b] ∧ c₁.unseen = rest ∧ c₁.remove = (.ok b.toPair, c₂) ∧
      c₂.table.toList.Perm ((c.seen ++ rest).map Bucket.toPair) := by
  obtain ⟨c₁, loc, hnext, hvalid, htable, hseen, hrest, hlast, hb⟩ := next_of_cons h hunseen
  rw [← htable] at hb
  obtain ⟨s, c₂, hs, hremove, -, hseen₂, hunseen₂, -, hvalid₂⟩ := remove_of_last hvalid hlast hb
  obtain ⟨rfl, -⟩ := List.append_inj' (hs.symm.trans hseen) rfl
  refine ⟨c₁, c₂, hnext, hvalid, htable, hseen, hrest, hremove, ?_⟩
  rw [Table.toList, ← seen_append_unseen, hseen₂, ← hrest]
  exact (hunseen₂.append_left _).map _

/-- The walk of a removal by value with nothing taken for granted: none if a call has no result or if the rounds do not suffice, and the cursor's error if it cannot remove the pair it returned last. -/
def Cursor.Calls.removeFirst [BEq V] (calls : Calls K V) (v : V) : (rounds : Nat) → Cursor K V →
    Option (Except TableError Bool × Table K V)
  | 0, _ => none
  | rounds + 1, c =>
    match calls.next c with
    | none => none
    | some (.error _, c) => some (.ok false, c.table)
    | some (.ok (_, x), c) =>
      if x == v then (calls.remove c).map fun r => (r.1.map fun _ => true, r.2.table)
      else calls.removeFirst v rounds c

namespace ValuesView

/-- A removal by value takes out the first unseen pair with an equal value, if there is one, and leaves the table as it was if not; nothing in it fails. -/
theorem exists_removeFrom [BEq K] [PartialEquivBEq K] [BEq V] (v : V) (fuel : Nat) {c : Cursor K V} (h : c.Valid)
    (hfuel : c.unseen.length ≤ fuel) : ∃ u, removeFrom v fuel c = (c.unseen.any (·.value == v), u) ∧
      Cursor.Calls.plain.removeFirst v (fuel + 1) c = some (.ok (c.unseen.any (·.value == v)), u) ∧
      u.toList.Perm ((c.seen ++ c.unseen.eraseP (·.value == v)).map Bucket.toPair) ∧
      (c.unseen.any (·.value == v) = false → u = c.table) := by
  induction fuel generalizing c with
  | zero =>
    have hnil : c.unseen = [] := List.eq_nil_of_length_eq_zero (by omega)
    rw [hnil, Cursor.Calls.removeFirst, Cursor.Calls.plain_next, Cursor.next_of_nil h hnil]
    refine ⟨c.table, rfl, rfl, ?_, fun _ => rfl⟩
    rw [Cursor.toList_eq, hnil, List.eraseP_nil, List.append_nil, List.map_nil, List.append_nil]
  | succ fuel ih =>
    rw [Cursor.Calls.removeFirst, Cursor.Calls.plain_next, removeFrom]
    rcases hunseen : c.unseen with - | ⟨b, rest⟩
    · rw [Cursor.next_of_nil h hunseen]
      refine ⟨c.table, rfl, rfl, ?_, fun _ => rfl⟩
      rw [Cursor.toList_eq, hunseen, List.eraseP_nil, List.append_nil, List.map_nil, List.append_nil]
    · rw [hunseen, List.length_cons] at hfuel
      obtain ⟨c₁, c₂, hnext, hvalid, htable, hseen, hrest, hremove, hleft⟩ := Cursor.exists_removal h hunseen
      have hvalue : b.toPair.2 = b.value := rfl
      rw [hnext, List.any_cons, List.eraseP_cons]
      dsimp only
      rw [hvalue]
      cases hequal : b.value == v with
      | true =>
        rw [Cursor.Calls.plain_remove, hremove, if_pos rfl, if_pos rfl, Bool.true_or, cond_true]
        exact ⟨c₂.table, rfl, rfl, hleft, fun hnone => Bool.noConfusion hnone⟩
      | false =>
        obtain ⟨u, hplain, hstrict, hperm, hsame⟩ := ih hvalid (by rw [hrest]; omega)
        rw [hrest] at hplain hstrict hperm hsame
        rw [hseen, List.append_assoc] at hperm
        rw [if_neg Bool.false_ne_true, if_neg Bool.false_ne_true, Bool.false_or, cond_false]
        exact ⟨u, hplain, hstrict, hperm, fun hnone => (hsame hnone).trans htable⟩

end ValuesView

/-! ### Judging pairs -/

/-- The pairs that a judge is shown, each with what it says of it, until it aborts. -/
def judged (f : σ → K × V → σ × Verdict) : σ → List (K × V) → List ((K × V) × Verdict)
  | _, [] => []
  | s, p :: ps =>
    match f s p with
    | (_, .abort) => [(p, .abort)]
    | (s, verdict) => (p, verdict) :: judged f s ps

/-- The pairs that a judge did not refuse. -/
def accepted (calls : List ((K × V) × Verdict)) : List (K × V) :=
  (calls.filter fun q => decide (q.2 ≠ .remove)).map Prod.fst

theorem visit_judging (f : σ → K × V → σ × Verdict) (s : σ) (log ps : List (K × V)) :
    let r := visit (Callback.judging f).logged (s, log) ps
    r.walked.state.2 = log ++ (judged f s ps).map Prod.fst ∧
      r.left = accepted (judged f s ps) ++ ps.drop (judged f s ps).length ∧
      (r.walked.aborted = false → (judged f s ps).map Prod.fst = ps) := by
  induction ps generalizing s log with
  | nil => exact ⟨(List.append_nil log).symm, rfl, fun _ => rfl⟩
  | cons p ps ih =>
    rcases hf : f s p with ⟨s', verdict⟩
    have hcall : Callback.judging f s p.1 p.2 = (s', p.2, verdict) := by rw [Callback.judging, hf]
    have hlogged := Callback.logged_eq hcall log
    obtain ⟨hlog, hleft, hall⟩ := ih s' (log ++ [p])
    rw [judged, hf]
    cases verdict with
    | keep =>
      rw [visit_keep _ hlogged]
      refine ⟨?_, congrArg (p :: ·) hleft, fun hdone => congrArg (p :: ·) (hall hdone)⟩
      exact hlog.trans (List.append_cons log p _).symm
    | remove =>
      rw [visit_remove _ hlogged]
      refine ⟨?_, hleft, fun hdone => congrArg (p :: ·) (hall hdone)⟩
      exact hlog.trans (List.append_cons log p _).symm
    | abort =>
      rw [visit_abort _ hlogged]
      exact ⟨rfl, rfl, fun hdone => Bool.noConfusion hdone⟩

/-- A judge without a state never aborts, and lets stay what satisfies its condition. -/
theorem judged_condition (q : K × V → Bool) (ps : List (K × V)) :
    judged (fun _ p => ((), if q p then .keep else .remove)) () ps =
      ps.map fun p => (p, if q p then .keep else .remove) := by
  induction ps with
  | nil => rfl
  | cons p ps ih =>
    rw [judged, List.map_cons, ← ih]
    cases q p <;> rfl

theorem accepted_condition (q : K × V → Bool) (ps : List (K × V)) :
    accepted (ps.map fun p => (p, if q p then .keep else .remove)) = ps.filter q := by
  induction ps with
  | nil => rfl
  | cons p ps ih =>
    rw [List.filter_cons, ← ih]
    cases hq : q p <;> simp [accepted, hq]

namespace Table

/-! ### What removals do -/

variable [BEq K]

/-- What no removal changes. -/
structure KeepsRoom (t u : Table K V) : Prop where
  capacity : u.capacity = t.capacity
  layout : u.LayoutInvariant

/-- Without the first pair that has an equal value. -/
structure RemovesFirst [BEq V] (v : V) (t : Table K V) (answer : Except TableError Bool) (u : Table K V) : Prop
    extends KeepsRoom t u where
  answer_eq : answer = .ok (t.containsValue v)
  /-- The walk ends by itself, and the cursor can remove what it returned. -/
  never_fails : Cursor.Calls.plain.removeFirst v (t.size + 1) (.start t) = some (answer, u)
  removed : u.toList.Perm (t.toList.eraseP fun p => p.2 == v)
  unchanged : t.containsValue v = false → u = t

/-- Without all pairs that have a value equal to one of those given. -/
structure RemovesAll [BEq V] (vs : List V) (t : Table K V) (answer : Except TableError Nat) (u : Table K V) : Prop
    extends KeepsRoom t u where
  removed : u.toList.Perm (t.toList.filter fun p => !vs.any (p.2 == ·))
  answer_eq : answer = .ok (t.toList.filter fun p => vs.any (p.2 == ·)).length
  size_eq : u.size + (t.toList.filter fun p => vs.any (p.2 == ·)).length = t.size

/-- Without the pair of a key, if its value is equal. -/
structure RemovesEntry [BEq V] (k : K) (v : V) (t : Table K V) (answer : Except TableError Bool) (u : Table K V) : Prop
    extends KeepsRoom t u where
  answer_eq : answer = .ok ((EntrySet.mk ⟨.exclusive, t⟩).contains k v)
  removed : (EntrySet.mk ⟨.exclusive, t⟩).contains k v = true → ∃ p, t.getEntry? k = some p ∧ (p.2 == v) = true ∧
    (p :: u.toList).Perm t.toList
  unchanged : (EntrySet.mk ⟨.exclusive, t⟩).contains k v = false → u = t

/-- With the pairs that a judge accepts and those that it was not shown. -/
structure RetainsAccepted (f : σ → K × V → σ × Verdict) (s : σ) (t : Table K V)
    (answer : Except TableError (Walked σ)) (u : Table K V) : Prop extends KeepsRoom t u where
  answer_eq : answer = .ok (t.retain (.judging f) s).1
  retained : ∃ order, order.Perm t.toList ∧ t.shown (.judging f) s = (judged f s order).map Prod.fst ∧
    u.toList.Perm (accepted (judged f s order) ++ order.drop (judged f s order).length) ∧
    ((t.retain (.judging f) s).1.aborted = false → (judged f s order).map Prod.fst = order)

variable {t : Table K V}

omit [BEq K] in
theorem containsValue_eq [BEq V] (t : Table K V) (v : V) : t.containsValue v = t.toList.any (·.2 == v) := by
  rw [containsValue, toList, List.any_map]
  rfl

theorem capacity_removeEntry (t : Table K V) (k : K) : (t.removeEntry k).2.capacity = t.capacity := by
  rw [removeEntry]
  split
  · rfl
  · exact capacity_removeAt? t _

variable [EquivBEq K]

theorem keepsRoom_retain (h : t.LayoutInvariant) (f : Callback σ K V) (s : σ) : t.KeepsRoom (t.retain f s).2 :=
  ⟨capacity_retain t f s, (keeps_retain t f s).layout h⟩

theorem removesFirst (h : t.LayoutInvariant) [BEq V] (v : V) :
    t.RemovesFirst v ((ValuesView.mk ⟨.exclusive, t⟩).remove v).1 ((ValuesView.mk ⟨.exclusive, t⟩).remove v).2 := by
  obtain ⟨u, hplain, hstrict, hperm, hsame⟩ := ValuesView.exists_removeFrom v t.size (Cursor.valid_start h)
    (Nat.le_of_eq (by rw [Cursor.unseen_start, h.size_eq]))
  rw [Cursor.unseen_start] at hplain hstrict hperm hsame
  rw [Cursor.seen_start, List.nil_append] at hperm
  have hresult : (ValuesView.mk ⟨.exclusive, t⟩).remove v = (.ok (t.containsValue v), u) :=
    congrArg (fun r : Bool × Table K V => (Except.ok r.1, r.2)) hplain
  have hkeeps := ValuesView.keeps_removeFrom v t.size (.start t)
  have hcapacity : (ValuesView.removeFrom v t.size (.start t)).2.capacity = t.capacity :=
    ValuesView.removeFrom_preserves (P := fun u => u.capacity = t.capacity)
      (fun u loc hu => (capacity_removeAt? u loc).trans hu) v t.size rfl
  rw [hplain] at hkeeps hcapacity
  rw [hresult]
  refine ⟨⟨hcapacity, hkeeps.layout h⟩, rfl, hstrict, ?_, hsame⟩
  rw [toList, toList, List.eraseP_map]
  exact hperm

theorem retainsAccepted (h : t.LayoutInvariant) (f : σ → K × V → σ × Verdict) (s : σ) :
    t.RetainsAccepted f s (.ok (t.retain (.judging f) s).1) (t.retain (.judging f) s).2 := by
  obtain ⟨order, hperm, hwalked, hleft⟩ := retain_eq_visit h (Callback.judging f).logged (s, [])
  obtain ⟨hlog, hkept, hall⟩ := visit_judging f s [] order
  obtain ⟨htable, hsame⟩ := retain_logged t (.judging f) s
  refine ⟨keepsRoom_retain h _ s, rfl, order, hperm, ?_, ?_, fun hdone => hall ?_⟩
  · rw [shown, hwalked]
    exact hlog
  · rw [← htable, ← hkept]
    exact hleft
  · rw [hsame, hwalked] at hdone
    exact hdone

theorem toList_filter_perm (h : t.LayoutInvariant) (q : K → V → Bool) :
    (t.filter q).toList.Perm (t.toList.filter fun p => q p.1 p.2) := by
  obtain ⟨-, -, order, hperm, -, hleft, -⟩ :=
    retainsAccepted h (fun (_ : Unit) p => ((), if q p.1 p.2 then .keep else .remove)) ()
  rw [judged_condition (fun p => q p.1 p.2), accepted_condition, List.length_map, List.drop_length,
    List.append_nil] at hleft
  exact hleft.trans (hperm.filter _)

theorem removesAll (h : t.LayoutInvariant) [BEq V] (hsymm : ∀ a b : V, (a == b) = (b == a)) (vs : List V) :
    t.RemovesAll vs ((ValuesView.mk ⟨.exclusive, t⟩).removeAll vs).1
      ((ValuesView.mk ⟨.exclusive, t⟩).removeAll vs).2 := by
  have hequal : (fun (_ : K) x => !vs.any (· == x)) = fun _ x => !vs.any (x == ·) :=
    funext fun _ => funext fun x => congrArg (fun q => !vs.any q) (funext fun y => hsymm y x)
  have hresult : (ValuesView.mk ⟨.exclusive, t⟩).removeAll vs =
      (.ok (t.size - (t.filter fun _ x => !vs.any (x == ·)).size), t.filter fun _ x => !vs.any (x == ·)) := by
    rw [← hequal]
    rfl
  have hroom := keepsRoom_retain h (Callback.judging fun (_ : Unit) p =>
    ((), if !vs.any (p.2 == ·) then Verdict.keep else Verdict.remove)) ()
  have hperm := toList_filter_perm h fun _ x => !vs.any (x == ·)
  have hsize : (t.filter fun _ x => !vs.any (x == ·)).size + (t.toList.filter fun p => vs.any (p.2 == ·)).length =
      t.size := by
    have hparts := List.length_eq_length_filter_add (l := t.toList) fun p => vs.any (p.2 == ·)
    have hrest : (t.filter fun _ x => !vs.any (x == ·)).toList.length = (t.filter fun _ x => !vs.any (x == ·)).size :=
      hroom.layout.length_toList
    rw [← hrest, hperm.length_eq, ← h.length_toList, hparts, Nat.add_comm]
  rw [hresult]
  refine ⟨hroom, hperm, congrArg Except.ok ?_, hsize⟩
  omega

theorem removesEntry (h : t.LayoutInvariant) [BEq V] (k : K) (v : V) :
    t.RemovesEntry k v ((EntrySet.mk ⟨.exclusive, t⟩).remove k v).1 ((EntrySet.mk ⟨.exclusive, t⟩).remove k v).2 := by
  have hmodels := models_toList h
  obtain ⟨hentry, hleft, hperm⟩ := models_removeEntry hmodels k
  have hget := getEntry?_eq hmodels k
  have hcontains : (EntrySet.mk ⟨.exclusive, t⟩).contains k v = (t.get? k).any (· == v) := rfl
  cases hequal : (t.get? k).any (· == v) with
  | false =>
    have hresult : (EntrySet.mk ⟨.exclusive, t⟩).remove k v = (.ok false, t) := by
      rw [EntrySet.remove, View.edit]
      simp only [hequal, Bool.false_eq_true, if_false]
    rw [hresult]
    refine ⟨⟨rfl, h⟩, by rw [hcontains, hequal], fun htrue => ?_, fun _ => rfl⟩
    rw [hcontains, hequal] at htrue
    exact Bool.noConfusion htrue
  | true =>
    have hresult : (EntrySet.mk ⟨.exclusive, t⟩).remove k v =
        (.ok (t.removeEntry k).1.isSome, (t.removeEntry k).2) := by
      rw [EntrySet.remove, View.edit]
      simp only [hequal, if_true]
    obtain ⟨x, hx, hxv⟩ := (Option.any_eq_true _ _).mp hequal
    obtain ⟨p, hp, rfl⟩ := Option.map_eq_some_iff.mp hx
    rw [hresult]
    refine ⟨⟨capacity_removeEntry t k, hleft⟩, ?_, fun _ => ⟨p, hp, hxv, ?_⟩, fun hfalse => ?_⟩
    · rw [hcontains, hequal, hentry, ← hget, hp]
      rfl
    · have hfind := hget.symm.trans hp
      exact (hperm.cons p).trans (PairMap.cons_erase_perm (sameKey_equivalence t.hash) (distinct_toList h) hfind)
    · rw [hcontains, hequal] at hfalse
      exact Bool.noConfusion hfalse

/-- Through exclusive views, removals by value take out what has an equal value, the first such pair or all of them; a removal of an entry takes out the pair of its key if the value is equal; and filters of keys or values keep exactly the pairs that are accepted. The answers say what was done, and a value that is not equal to itself is never found. -/
theorem view_removals_are_exact [BEq V] (hsymm : ∀ a b : V, (a == b) = (b == a)) (h : t.LayoutInvariant) :
    (∀ v, t.RemovesFirst v ((ValuesView.mk ⟨.exclusive, t⟩).remove v).1
      ((ValuesView.mk ⟨.exclusive, t⟩).remove v).2) ∧
    (∀ vs, t.RemovesAll vs ((ValuesView.mk ⟨.exclusive, t⟩).removeAll vs).1
      ((ValuesView.mk ⟨.exclusive, t⟩).removeAll vs).2) ∧
    (∀ k v, t.RemovesEntry k v ((EntrySet.mk ⟨.exclusive, t⟩).remove k v).1
      ((EntrySet.mk ⟨.exclusive, t⟩).remove k v).2) ∧
    (∀ {σ : Type} (f : σ → K → σ × Verdict) (s : σ),
      let r := (KeySet.mk ⟨.exclusive, t⟩).retain (.judging fun s p => f s p.1) s
      t.RetainsAccepted (fun s p => f s p.1) s r.1 r.2) ∧
    (∀ {σ : Type} (f : σ → V → σ × Verdict) (s : σ),
      let r := (ValuesView.mk ⟨.exclusive, t⟩).retain (.judging fun s p => f s p.2) s
      t.RetainsAccepted (fun s p => f s p.2) s r.1 r.2) ∧
    (∀ q : K → Bool, ((KeySet.mk ⟨.exclusive, t⟩).retain
      (fun (_ : Unit) k v => ((), v, if q k then .keep else .remove)) ()).2.toList.Perm
        (t.toList.filter fun p => q p.1)) ∧
    ∀ q : V → Bool, ((ValuesView.mk ⟨.exclusive, t⟩).retain
      (fun (_ : Unit) _ v => ((), v, if q v then .keep else .remove)) ()).2.toList.Perm
        (t.toList.filter fun p => q p.2) :=
  ⟨removesFirst h, removesAll h hsymm, removesEntry h, fun f s => retainsAccepted h (fun s p => f s p.1) s,
    fun f s => retainsAccepted h (fun s p => f s p.2) s, fun q => toList_filter_perm h fun k _ => q k,
    fun q => toList_filter_perm h fun _ v => q v⟩

/-- Three colliding pairs whose values are not a number, zero and negative zero. The first is never found by its value; zero takes out the second, though the third is equal too. -/
theorem view_removals_are_exact_signed_zeros : ∃ t : Table UInt64 Double, ∃ u w,
    t = (build (fun _ => 7) .standard 0).extend [(1, ⟨0x7ff8000000000000⟩), (2, ⟨0⟩), (3, ⟨0x8000000000000000⟩)] ∧
      (∀ a b : Double, (a == b) = (b == a)) ∧ t.LayoutInvariant ∧
      (ValuesView.mk ⟨.exclusive, t⟩).remove ⟨0x7ff8000000000000⟩ = (.ok false, t) ∧
      (ValuesView.mk ⟨.exclusive, t⟩).remove ⟨0⟩ = (.ok true, u) ∧
      u.toList.Perm [(1, ⟨0x7ff8000000000000⟩), (3, ⟨0x8000000000000000⟩)] ∧
      (ValuesView.mk ⟨.exclusive, t⟩).removeAll [⟨0x7ff8000000000000⟩, ⟨0⟩] = (.ok 2, w) ∧
      w.toList.Perm [(1, ⟨0x7ff8000000000000⟩)] ∧ w.LayoutInvariant := by
  obtain ⟨t, ht⟩ : ∃ t : Table UInt64 Double, t = (build (fun _ => 7) .standard 0).extend
      [(1, ⟨0x7ff8000000000000⟩), (2, ⟨0⟩), (3, ⟨0x8000000000000000⟩)] := ⟨_, rfl⟩
  have hlayout : t.LayoutInvariant := ht ▸ layoutInvariant_extend_build _ _ _ _
  have hpairs : t.toList = [(1, ⟨0x7ff8000000000000⟩), (2, ⟨0⟩), (3, ⟨0x8000000000000000⟩)] := by
    rw [ht]
    decide +kernel
  obtain ⟨hfirst, hall, -⟩ := view_removals_are_exact Double.beq_comm hlayout
  have hnan := hfirst ⟨0x7ff8000000000000⟩
  have hzero := hfirst ⟨0⟩
  have hboth := hall [⟨0x7ff8000000000000⟩, ⟨0⟩]
  have habsent : t.containsValue ⟨0x7ff8000000000000⟩ = false := by
    rw [containsValue_eq, hpairs]
    decide +kernel
  have hpresent : t.containsValue ⟨0⟩ = true := by
    rw [containsValue_eq, hpairs]
    decide +kernel
  have hzeroLeft := hzero.removed
  have hbothLeft := hboth.removed
  have hcount := hboth.answer_eq
  rw [hpairs] at hzeroLeft hbothLeft hcount
  refine ⟨t, _, _, ht, Double.beq_comm, hlayout, ?_, ?_, hzeroLeft, ?_, hbothLeft, hboth.layout⟩
  · exact Prod.ext (hnan.answer_eq.trans (by rw [habsent])) (hnan.unchanged habsent)
  · exact Prod.ext (hzero.answer_eq.trans (by rw [hpresent])) rfl
  · exact Prod.ext hcount rfl

end Table

end FlatTable

import FlatTable.Proofs.Sessions

/-!
# Sections act as plain runs

The requests to views are written down once more as operations of the table itself, with no view that could refuse them. A writing section does to its table what these do one after the other, up to the one that breaks it off, and keeps what they did. A reading section gives what they give where they only look, refuses the others one by one, and leaves its table as it is.
-/

namespace FlatTable

variable {K V σ : Type}

/-- Answers the requests that change nothing, and refuses the others. -/
def refusing {ρ : Type} (mutates : ρ → Bool) (direct : ρ → Table K V → Reply K V × Table K V) (op : ρ)
    (t : Table K V) : Reply K V × Table K V :=
  if mutates op then (.refused .unsupportedMutation, t) else direct op t

theorem refusing_snd {ρ : Type} {mutates : ρ → Bool} {direct : ρ → Table K V → Reply K V × Table K V}
    (hreads : ∀ op t, mutates op = false → (direct op t).2 = t) (op : ρ) (t : Table K V) :
    (refusing mutates direct op t).2 = t := by
  by_cases h : mutates op = true
  · rw [refusing, if_pos h]
  · rw [refusing, if_neg h]
    exact hreads op t (by simpa using h)

section Parts

variable [BEq K] [BEq V]

/-! ### Entries, keys and values -/

namespace EntriesOp

def mutates : EntriesOp K V → Bool
  | remove _ _ => true
  | _ => false

/-- The request as an operation of the table. -/
def direct (op : EntriesOp K V) (t : Table K V) : Reply K V × Table K V :=
  match op with
  | size => (.count t.size, t)
  | isEmpty => (.flag t.isEmpty, t)
  | iterate => (.pairs t.toList, t)
  | contains k v => (.flag ((t.get? k).any (· == v)), t)
  | remove k v =>
    if (t.get? k).any (· == v) then (.flag (t.removeEntry k).1.isSome, (t.removeEntry k).2) else (.flag false, t)

theorem answer_exclusive : answer .exclusive = direct (K := K) (V := V) := by
  funext op t
  cases op with
  | remove k v =>
    by_cases h : (t.get? k).any (· == v) = true <;>
      simp [answer, direct, EntrySet.remove, View.edit, h, Reply.ofExcept]
  | _ => rfl

theorem answer_shared : answer .shared = refusing mutates (direct (K := K) (V := V)) := by
  funext op t
  cases op <;> rfl

theorem direct_snd (op : EntriesOp K V) (t : Table K V) (h : op.mutates = false) : (op.direct t).2 = t := by
  cases op with
  | remove _ _ => exact Bool.noConfusion h
  | _ => rfl

end EntriesOp

variable [Bump V]

namespace KeySetOp

def mutates : KeySetOp K V σ → Bool
  | remove _ | retainBy .. | clear => true
  | _ => false

/-- The request as an operation of the table. -/
def direct (op : KeySetOp K V σ) (t : Table K V) : Reply K V × Table K V :=
  match op with
  | remove k => (.flag (t.removeEntry k).1.isSome, (t.removeEntry k).2)
  | retainBy judge s =>
    let r := t.retain (.judging fun s p => judge s p.1) s
    (.ofWalk (.ok r.1), r.2)
  | clear => (.flag true, t.clear)
  | op => (op.read ⟨⟨.exclusive, t⟩⟩, t)

omit [Bump V] in
/-- What is read off a set of keys does not depend on how its table is held. -/
theorem read_eq (access : Access) (op : KeySetOp K V σ) (t : Table K V) :
    op.read ⟨⟨access, t⟩⟩ = op.read ⟨⟨.exclusive, t⟩⟩ := by
  cases op <;> rfl

theorem answer_exclusive : answer .exclusive = (direct : KeySetOp K V σ → _) := by
  funext op t
  cases op <;> rfl

theorem answer_shared : answer .shared = refusing mutates (direct : KeySetOp K V σ → _) := by
  funext op t
  cases op with
  | remove _ | retainBy _ _ | clear => rfl
  | _ => exact congrArg (·, t) (read_eq .shared _ t)

theorem direct_snd (op : KeySetOp K V σ) (t : Table K V) (h : op.mutates = false) : (op.direct t).2 = t := by
  cases op with
  | remove _ | retainBy _ _ | clear => exact Bool.noConfusion h
  | _ => rfl

end KeySetOp

namespace ValuesOp

def mutates : ValuesOp K V σ → Bool
  | remove _ | removeAll _ | retainBy .. => true
  | _ => false

/-- The request as an operation of the table. -/
def direct (op : ValuesOp K V σ) (t : Table K V) : Reply K V × Table K V :=
  match op with
  | size => (.count t.size, t)
  | isEmpty => (.flag t.isEmpty, t)
  | iterate => (.values t.values, t)
  | contains v => (.flag (t.containsValue v), t)
  | remove v => (.flag (ValuesView.removeFrom v t.size (.start t)).1, (ValuesView.removeFrom v t.size (.start t)).2)
  | removeAll vs =>
    let u := t.filter fun _ x => !vs.any (· == x)
    (.count (t.size - u.size), u)
  | retainBy judge s =>
    let r := t.retain (.judging fun s p => judge s p.2) s
    (.ofWalk (.ok r.1), r.2)

theorem answer_exclusive : answer .exclusive = (direct : ValuesOp K V σ → _) := by
  funext op t
  cases op <;> rfl

theorem answer_shared : answer .shared = refusing mutates (direct : ValuesOp K V σ → _) := by
  funext op t
  cases op <;> rfl

theorem direct_snd (op : ValuesOp K V σ) (t : Table K V) (h : op.mutates = false) : (op.direct t).2 = t := by
  cases op with
  | remove _ | removeAll _ | retainBy _ _ => exact Bool.noConfusion h
  | _ => rfl

end ValuesOp

namespace PartOp

/-- Whether some of the requests changes the table. -/
def mutates : PartOp K V σ → Bool
  | keys ops => ops.any KeySetOp.mutates
  | values ops => ops.any ValuesOp.mutates
  | entries ops => ops.any EntriesOp.mutates

/-- The requests to a partial view as operations of the table. -/
def direct : PartOp K V σ → Table K V → Reply K V × Table K V
  | keys ops => Reply.sequence KeySetOp.direct ops
  | values ops => Reply.sequence ValuesOp.direct ops
  | entries ops => Reply.sequence EntriesOp.direct ops

/-- The requests to a partial view, those that would change the table refused. -/
def reading : PartOp K V σ → Table K V → Reply K V × Table K V
  | keys ops => Reply.sequence (refusing KeySetOp.mutates KeySetOp.direct) ops
  | values ops => Reply.sequence (refusing ValuesOp.mutates ValuesOp.direct) ops
  | entries ops => Reply.sequence (refusing EntriesOp.mutates EntriesOp.direct) ops

theorem answer_exclusive (op : PartOp K V σ) : op.answer .exclusive = op.direct := by
  funext t
  cases op with
  | keys ops => rw [answer, KeySetOp.answer_exclusive, direct]
  | values ops => rw [answer, ValuesOp.answer_exclusive, direct]
  | entries ops => rw [answer, EntriesOp.answer_exclusive, direct]

theorem answer_shared (op : PartOp K V σ) : op.answer .shared = op.reading := by
  funext t
  cases op with
  | keys ops => rw [answer, KeySetOp.answer_shared, reading]
  | values ops => rw [answer, ValuesOp.answer_shared, reading]
  | entries ops => rw [answer, EntriesOp.answer_shared, reading]

theorem reading_snd (op : PartOp K V σ) (t : Table K V) : (op.reading t).2 = t := by
  have hsequence {ρ : Type} {mutates : ρ → Bool} {direct : ρ → Table K V → Reply K V × Table K V}
      (hreads : ∀ op u, mutates op = false → (direct op u).2 = u) (ops : List ρ) :
      (Reply.sequence (refusing mutates direct) ops t).2 = t :=
    Reply.sequence_induction (P := (· = t)) (fun op u hu => (refusing_snd hreads op u).trans hu) ops rfl
  cases op with
  | keys ops => exact hsequence KeySetOp.direct_snd ops
  | values ops => exact hsequence ValuesOp.direct_snd ops
  | entries ops => exact hsequence EntriesOp.direct_snd ops

end PartOp

end Parts

section Sections

variable [BEq K] [BEq V] [Bump V]

/-! ### Views of whole tables -/

namespace ViewOp

/-- Whether the operation may change the table. -/
def mutates : ViewOp K V σ → Bool
  | insert .. | remove _ | clear | updateAll _ | update .. | findOrStore .. | retainBy .. | cursor _ => true
  | part op => op.mutates
  | _ => false

/-- The operation of the table itself. -/
def direct : ViewOp K V σ → Table K V → Reply K V × Table K V
  | size, t => (.count t.size, t)
  | isEmpty, t => (.flag t.isEmpty, t)
  | get k, t => (.value? (t.get? k), t)
  | contains k, t => (.flag (t.contains k), t)
  | insert k v, t => (.value? (t.insert k v).1, (t.insert k v).2)
  | remove k, t => (.value? (t.remove k).1, (t.remove k).2)
  | clear, t => (.flag true, t.clear)
  | iterate, t => (.pairs t.toList, t)
  | forEach f s, t => (t.showAll f s, t)
  | part op, t => op.direct t
  | updateAll f, t => (.pairs (t.mapValues f).toList, t.mapValues f)
  | update k f, t => (.value? (t.modify k f).1, (t.modify k f).2)
  | findOrStore k default change, t =>
    match t.getOrInsert k default with
    | (.found loc, u) | (.inserted loc, u) =>
      let w := change.elim u (u.modifyValueAt loc)
      ((w.bucketAt? loc).elim .unknown fun b => .value b.value, w)
    | (.aborted, u) => (.aborted .callback, u)
  | retainBy f s, t => (.ofWalk (.ok (t.retain f s).1), (t.retain f s).2)
  | cursor ops, t => CursorOp.run ops t

/-- The operation where the table must stay as it is: refused if it could change the table. Of several requests to a partial view, each is refused by itself. -/
def reading : ViewOp K V σ → Table K V → Reply K V × Table K V
  | part op => op.reading
  | op => refusing mutates direct op

theorem answer_exclusive : answer .exclusive = (direct : ViewOp K V σ → _) := by
  funext op t
  cases op with
  | part op => exact congrFun op.answer_exclusive t
  | findOrStore k default change =>
    rw [answer, onTable, Edit.obtainWith, direct]
    rcases t.getOrInsert k default with ⟨loc | loc | _, u⟩
    · dsimp only
      rcases (change.elim u (u.modifyValueAt loc)).bucketAt? loc with - | b <;> rfl
    · dsimp only
      rcases (change.elim u (u.modifyValueAt loc)).bucketAt? loc with - | b <;> rfl
    · rfl
  | _ => rfl

theorem reading_snd (op : ViewOp K V σ) (t : Table K V) : (op.reading t).2 = t := by
  cases op with
  | part op => exact op.reading_snd t
  | _ => rfl

theorem answer_shared : answer .shared = (reading : ViewOp K V σ → _) := by
  funext op t
  cases op with
  | part op =>
    show ((op.answer .shared t).1, t) = op.reading t
    rw [op.answer_shared]
    exact Prod.ext rfl (op.reading_snd t).symm
  | _ => rfl

end ViewOp

/-! ### Sections -/

/-- What a section does through its view: one of the view's operations, or break off. -/
inductive ViewAct (K V : Type) (σ : Type := Nat)
  | view (op : ViewOp K V σ)
  | abort

namespace ViewAct

/-- Applies acts to a table one after the other, up to the one that breaks off: its reply is the last, and the table stays as it is then. -/
def run (answer : ViewOp K V σ → Table K V → Reply K V × Table K V) :
    List (ViewAct K V σ) → Table K V → List (Reply K V) × Table K V
  | [], t => ([], t)
  | abort :: _, t => ([.aborted .inSection], t)
  | view op :: acts, t =>
    let (reply, t) := answer op t
    match reply.abort? with
    | some _ => ([reply], t)
    | none =>
      let (replies, t) := run answer acts t
      (reply :: replies, t)

end ViewAct

namespace Session

end Session

end Sections

end FlatTable

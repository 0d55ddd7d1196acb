import FlatTable.Table.Cursor

/-!
# Filtering with a callback

A callback looks at a pair, may change its value, and says whether the pair stays; or it aborts, and
the walk stops where it is with the changes made so far. Its own state runs through the calls.
-/

namespace FlatTable

universe u v w

/-- What a callback says about a pair. -/
inductive Verdict
  | keep
  | remove
  | abort
deriving DecidableEq

/-- Sees a pair, leaves a value in it and judges it. -/
abbrev Callback (σ : Type w) (K : Type u) (V : Type v) := σ → K → V → σ × V × Verdict

/-- The callback that judges pairs and leaves their values alone. -/
def Callback.judging {σ : Type w} {K : Type u} {V : Type v} (f : σ → K × V → σ × Verdict) :
    Callback σ K V := fun s k v =>
  let (state, verdict) := f s (k, v)
  (state, v, verdict)

/-- What a walk with a callback leaves: the callback's state, and whether it ran to the end. -/
structure Walked (σ : Type w) where
  state : σ
  aborted : Bool

variable {σ : Type w} {K : Type u} {V : Type v}

/-- Filters the next `fuel` pairs. -/
def Cursor.retain (f : Callback σ K V) : (fuel : Nat) → σ → Cursor K V → Walked σ × Cursor K V
  | 0, s, c => (⟨s, false⟩, c)
  | fuel + 1, s, c =>
    match c.next with
    | (.error _, c) => (⟨s, false⟩, c)
    | (.ok (k, v), c) =>
      let (s, v, verdict) := f s k v
      let c := c.modifyLast fun _ => v
      match verdict with
      | .keep => Cursor.retain f fuel s c
      | .remove => Cursor.retain f fuel s c.remove.2
      | .abort => (⟨s, true⟩, c)

/-- Keeps the pairs that the callback accepts, with the values it leaves in them. -/
def Table.retain (t : Table K V) (f : Callback σ K V) (s : σ) : Walked σ × Table K V :=
  let n := t.size
  let (walked, c) := Cursor.retain f n s (.start t)
  (walked, c.table)

def Table.filter (t : Table K V) (p : K → V → Bool) : Table K V :=
  (t.retain (fun (_ : Unit) k v => ((), v, if p k v then .keep else .remove)) ()).2

/-- The pairs met by a sweep, what each removal gave, and the error that ended it. -/
structure Sweep (K : Type u) (V : Type v) where
  seen : List (K × V)
  removed : List (Except TableError (K × V))
  stop : TableError

/--
Goes on until no pair is left, removing those that the callback accepts; nothing is reported if it
aborts. Fewer than `fuel` pairs are left to visit. What was met is gathered in reverse.
-/
def Cursor.sweepFrom (f : Callback σ K V) : (fuel : Nat) → σ → Cursor K V → (seen : List (K × V)) →
    (removed : List (Except TableError (K × V))) → Option (Sweep K V) × Cursor K V
  | 0, _, c, seen, removed => (some ⟨seen.reverse, removed.reverse, .exhausted⟩, c)
  | fuel + 1, s, c, seen, removed =>
    match c.next with
    | (.error e, c) => (some ⟨seen.reverse, removed.reverse, e⟩, c)
    | (.ok (k, v), c) =>
      let (s, v, verdict) := f s k v
      let c := c.modifyLast fun _ => v
      let seen := (k, v) :: seen
      match verdict with
      | .keep => Cursor.sweepFrom f fuel s c seen removed
      | .remove =>
        let (answer, c) := c.remove
        Cursor.sweepFrom f fuel s c seen (answer :: removed)
      | .abort => (none, c)

/-- Visits all pairs left, removing those for which the callback says so. -/
def Cursor.sweep (c : Cursor K V) (f : Callback σ K V) (s : σ) : Option (Sweep K V) × Cursor K V :=
  let n := c.remaining
  Cursor.sweepFrom f (n + 1) s c [] []

end FlatTable

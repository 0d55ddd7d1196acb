import FlatTable.Proofs.Cursor
import FlatTable.Proofs.Operations

/-!
# Runs of a cursor

Calls of `Cursor.next` and `Cursor.remove` in any order. What a run has done is read off its events: the pairs returned, the pairs removed, and the pair that `remove` would take out. `Cursor.Tracks` ties these to the cursor, one call keeps it, and so every run meets each pair exactly once.
-/

namespace FlatTable

universe u v

variable {K : Type u} {V : Type v}

inductive CursorCall
  | next
  | remove

/-- A call and its answer. -/
structure CursorEvent (K : Type u) (V : Type v) where
  call : CursorCall
  answer : Except TableError (K × V)

namespace CursorEvent

/-- The pair that a call returned to be visited. -/
def returned? : CursorEvent K V → Option (K × V)
  | ⟨.next, .ok p⟩ => some p
  | _ => none

/-- The pair that a call removed. -/
def removed? : CursorEvent K V → Option (K × V)
  | ⟨.remove, .ok p⟩ => some p
  | _ => none

/-- The pair returned last and not removed, after a further call. Failed calls do not change it. -/
def pending (last : Option (K × V)) : CursorEvent K V → Option (K × V)
  | ⟨.next, .ok p⟩ => some p
  | ⟨.remove, .ok _⟩ => none
  | ⟨_, .error _⟩ => last

end CursorEvent

/-- The pairs returned in a run, in order. -/
def returnedPairs (events : List (CursorEvent K V)) : List (K × V) := events.filterMap CursorEvent.returned?

/-- The pairs removed in a run, in order. -/
def removedPairs (events : List (CursorEvent K V)) : List (K × V) := events.filterMap CursorEvent.removed?

/-- The pair returned last, if some call returned one since the run began or since the last removal. -/
def pendingPair (events : List (CursorEvent K V)) : Option (K × V) := events.foldl CursorEvent.pending none

section Histories

variable (events : List (CursorEvent K V)) (e : CursorEvent K V)

theorem returnedPairs_concat : returnedPairs (events ++ [e]) = returnedPairs events ++ e.returned?.toList := by
  rw [returnedPairs, List.filterMap_append, returnedPairs]
  rcases e.returned?.eq_none_or_eq_some with he | ⟨p, he⟩ <;> simp [he]

theorem removedPairs_concat : removedPairs (events ++ [e]) = removedPairs events ++ e.removed?.toList := by
  rw [removedPairs, List.filterMap_append, removedPairs]
  rcases e.removed?.eq_none_or_eq_some with he | ⟨p, he⟩ <;> simp [he]

theorem pendingPair_concat : pendingPair (events ++ [e]) = e.pending (pendingPair events) := by
  rw [pendingPair, List.foldl_append]
  rfl

end Histories

namespace Cursor

/-- Makes one call. -/
def answer (c : Cursor K V) : CursorCall → Except TableError (K × V) × Cursor K V
  | .next => c.next
  | .remove => c.remove

def run : List CursorCall → Cursor K V → List (CursorEvent K V) × Cursor K V
  | [], c => ([], c)
  | call :: calls, c =>
    let (answer, c) := c.answer call
    let (events, c) := run calls c
    (⟨call, answer⟩ :: events, c)

/-- The pair returned last, where it stands now. -/
def lastPair (c : Cursor K V) : Option (K × V) := (c.last.bind c.table.bucketAt?).map Bucket.toPair

variable [BEq K]

/-- A cursor that a run from the start of a table has led to. -/
structure Tracks (t : Table K V) (events : List (CursorEvent K V)) (c : Cursor K V) : Prop where
  valid : c.Valid
  keeps : t.Keeps c.table
  returned_perm : (returnedPairs events ++ c.unseen.map Bucket.toPair).Perm t.toList
  removed_perm : (removedPairs events ++ c.table.toList).Perm t.toList
  pending_eq : pendingPair events = c.lastPair

theorem tracks_start {t : Table K V} (h : t.LayoutInvariant) : (start t).Tracks t [] where
  valid := valid_start h
  keeps := Table.Keeps.refl t
  returned_perm := by
    rw [unseen_start]
    rfl
  removed_perm := List.Perm.refl _
  pending_eq := rfl

section Steps

variable {t : Table K V} {events : List (CursorEvent K V)} {c : Cursor K V}

theorem tracks_of_error (h : c.Tracks t events) (call : CursorCall) (e : TableError) :
    c.Tracks t (events ++ [⟨call, .error e⟩]) where
  valid := h.valid
  keeps := h.keeps
  returned_perm := by
    rw [returnedPairs_concat]
    cases call <;> simpa [CursorEvent.returned?] using h.returned_perm
  removed_perm := by
    rw [removedPairs_concat]
    cases call <;> simpa [CursorEvent.removed?] using h.removed_perm
  pending_eq := by
    rw [pendingPair_concat]
    cases call <;> exact h.pending_eq

theorem tracks_next (h : c.Tracks t events) : c.next.2.Tracks t (events ++ [⟨.next, c.next.1⟩]) := by
  rcases hunseen : c.unseen with - | ⟨b, rest⟩
  · rw [next_of_nil h.valid hunseen]
    exact tracks_of_error h .next .exhausted
  · obtain ⟨c', loc, hnext, hvalid, htable, -, hrest, hlast, hb⟩ := next_of_cons h.valid hunseen
    rw [hnext]
    refine ⟨hvalid, by rw [htable]; exact h.keeps, ?_, ?_, ?_⟩
    · have hold := h.returned_perm
      rw [hunseen, List.map_cons, List.append_cons] at hold
      rw [returnedPairs_concat, hrest]
      exact hold
    · rw [removedPairs_concat, htable]
      simpa [CursorEvent.removed?] using h.removed_perm
    · rw [pendingPair_concat, lastPair, hlast, htable]
      change some b.toPair = ((c.table.bucketAt? loc).map Bucket.toPair)
      rw [hb]
      rfl

theorem tracks_remove [EquivBEq K] (h : c.Tracks t events) :
    c.remove.2.Tracks t (events ++ [⟨.remove, c.remove.1⟩]) := by
  rcases hlast : c.last with - | loc
  · rw [remove_of_none hlast]
    exact tracks_of_error h .remove .invalidCursorState
  · obtain ⟨-, b, hb⟩ := h.valid.last_after loc hlast
    obtain ⟨s, c', -, hremove, htable, -, hunseen, hlast', hvalid⟩ := remove_of_last h.valid hlast hb
    have hkeeps := keeps_remove c
    rw [hremove] at hkeeps
    rw [hremove]
    refine ⟨hvalid, h.keeps.trans hkeeps, ?_, ?_, ?_⟩
    · rw [returnedPairs_concat]
      have hperm := (hunseen.map Bucket.toPair).append_left (returnedPairs events)
      -- The removed pair had been returned; the unseen ones only change their order.
      simpa [CursorEvent.returned?] using hperm.trans h.returned_perm
    · have hdropped := (Table.buckets_dropAt_perm h.valid.layout.wellFormed hb).map Bucket.toPair
      rw [removedPairs_concat, htable, List.append_assoc]
      exact (hdropped.append_left _).trans h.removed_perm
    · rw [pendingPair_concat, lastPair, hlast']
      rfl

theorem tracks_answer [EquivBEq K] (h : c.Tracks t events) (call : CursorCall) :
    (c.answer call).2.Tracks t (events ++ [⟨call, (c.answer call).1⟩]) := by
  cases call with
  | next => exact tracks_next h
  | remove => exact tracks_remove h

/-- A run goes on from any point that it has reached. -/
theorem tracks_run [EquivBEq K] (calls : List CursorCall) (h : c.Tracks t events) :
    (run calls c).2.Tracks t (events ++ (run calls c).1) := by
  induction calls generalizing events c with
  | nil =>
    rw [run, List.append_nil]
    exact h
  | cons call calls ih =>
    have hrest := ih (tracks_answer h call)
    rwa [List.append_assoc] at hrest

end Steps

/-! ### Exactly once -/

/-- What holds at every point of a run that started at a table. -/
structure ExactlyOnce (t : Table K V) (events : List (CursorEvent K V)) (c : Cursor K V) : Prop where
  /-- No pair is returned more often than the table held it. -/
  returned_subperm : (returnedPairs events).Subperm t.toList
  /-- No two of the pairs returned belong to one key. -/
  returned_distinct : PairMap.Distinct (sameKey t.hash) (returnedPairs events)
  remaining_eq : c.remaining + (returnedPairs events).length = t.size
  /-- What the table holds are the pairs it started with, less those removed. -/
  removed_perm : (removedPairs events ++ c.table.toList).Perm t.toList
  layout : c.table.LayoutInvariant
  hash_eq : c.table.hash = t.hash
  exhausted_iff : c.next.1 = .error .exhausted ↔ (returnedPairs events).Perm t.toList
  next_of_not_exhausted : c.next.1 ≠ .error .exhausted → ∃ p, c.next.1 = .ok p
  /-- The search for the next pair ends inside the slot array. -/
  seek_isSome : c.hasNext = true → (seek c.table.slots c.position c.cell).isSome = true
  remove_of_pending_none : pendingPair events = none → c.remove.1 = .error .invalidCursorState
  /-- Removing takes out the pair that was returned last, and nothing else. -/
  remove_of_pending : ∀ p, pendingPair events = some p →
    c.remove.1 = .ok p ∧ (p :: c.remove.2.table.toList).Perm c.table.toList
  unchanged_of_error : ∀ call e, (c.answer call).1 = .error e → (c.answer call).2 = c

theorem distinct_returnedPairs [EquivBEq K] {t : Table K V} (ht : t.LayoutInvariant)
    {events : List (CursorEvent K V)} (hsub : (returnedPairs events).Subperm t.toList) :
    PairMap.Distinct (sameKey t.hash) (returnedPairs events) := by
  obtain ⟨l, hperm, hsublist⟩ := hsub
  exact PairMap.distinct_of_perm (sameKey_equivalence t.hash) hperm ((Table.distinct_toList ht).sublist hsublist)

theorem exists_bucket_of_pending {t : Table K V} {events : List (CursorEvent K V)} {c : Cursor K V}
    (h : c.Tracks t events) {p : K × V} (hp : pendingPair events = some p) :
    ∃ loc b, c.last = some loc ∧ c.table.bucketAt? loc = some b ∧ b.toPair = p := by
  rw [h.pending_eq, lastPair] at hp
  obtain ⟨b, hb, hpair⟩ := Option.map_eq_some_iff.mp hp
  obtain ⟨loc, hloc, hat⟩ := Option.bind_eq_some_iff.mp hb
  exact ⟨loc, b, hloc, hat, hpair⟩

theorem last_eq_none_of_pending {t : Table K V} {events : List (CursorEvent K V)} {c : Cursor K V}
    (h : c.Tracks t events) (hp : pendingPair events = none) : c.last = none := by
  rcases hlast : c.last with - | loc
  · rfl
  · obtain ⟨-, b, hb⟩ := h.valid.last_after loc hlast
    rw [h.pending_eq, lastPair, hlast, Option.bind_some, hb] at hp
    simp at hp

theorem unchanged_of_error [EquivBEq K] {c : Cursor K V} (h : c.Valid) (call : CursorCall) {e : TableError}
    (he : (c.answer call).1 = .error e) : (c.answer call).2 = c := by
  cases call with
  | next =>
    rcases hunseen : c.unseen with - | ⟨b, rest⟩
    · rw [answer, next_of_nil h hunseen]
    · obtain ⟨c', loc, hnext, -⟩ := next_of_cons h hunseen
      rw [answer, hnext] at he
      simp at he
  | remove =>
    rcases hlast : c.last with - | loc
    · rw [answer, remove_of_none hlast]
    · obtain ⟨-, b, hb⟩ := h.last_after loc hlast
      obtain ⟨s, c', -, hremove, -⟩ := remove_of_last h hlast hb
      rw [answer, hremove] at he
      simp at he

theorem exactlyOnce_of_tracks [EquivBEq K] {t : Table K V} (ht : t.LayoutInvariant) {events : List (CursorEvent K V)}
    {c : Cursor K V} (h : c.Tracks t events) : c.ExactlyOnce t events := by
  have hsub : (returnedPairs events).Subperm t.toList :=
    (List.sublist_append_left _ _).subperm.trans h.returned_perm.subperm
  have hlen : (returnedPairs events).length + c.unseen.length = t.toList.length := by
    rw [← h.returned_perm.length_eq, List.length_append, List.length_map]
  refine ⟨hsub, distinct_returnedPairs ht hsub, ?_, h.removed_perm, h.valid.layout, h.keeps.hash, ?_, ?_, ?_, ?_, ?_,
    fun call e => unchanged_of_error h.valid call⟩
  · rw [ht.length_toList] at hlen
    rw [remaining_eq h.valid]
    omega
  · rcases hunseen : c.unseen with - | ⟨b, rest⟩
    · have hall := h.returned_perm
      rw [hunseen, List.map_nil, List.append_nil] at hall
      rw [next_of_nil h.valid hunseen]
      exact iff_of_true rfl hall
    · obtain ⟨c', loc, hnext, -⟩ := next_of_cons h.valid hunseen
      rw [hunseen, List.length_cons] at hlen
      rw [hnext]
      refine iff_of_false (by simp) fun hall => ?_
      have := hall.length_eq
      omega
  · intro hne
    rcases hunseen : c.unseen with - | ⟨b, rest⟩
    · rw [next_of_nil h.valid hunseen] at hne
      exact absurd rfl hne
    · obtain ⟨c', loc, hnext, -⟩ := next_of_cons h.valid hunseen
      exact ⟨b.toPair, by rw [hnext]⟩
  · intro hmore
    have hsize := size_eq h.valid
    rw [hasNext, decide_eq_true_iff] at hmore
    obtain ⟨b, rest, hunseen⟩ := List.exists_cons_of_length_pos (l := c.unseen) (by omega)
    obtain ⟨loc, hseek, -⟩ := seek_of_cons h.valid.layout.wellFormed h.valid.isPlace hunseen
    rw [hseek]
    rfl
  · intro hp
    rw [remove_of_none (last_eq_none_of_pending h hp)]
  · intro p hp
    obtain ⟨loc, b, hlast, hb, rfl⟩ := exists_bucket_of_pending h hp
    obtain ⟨s, c', -, hremove, htable, -⟩ := remove_of_last h.valid hlast hb
    rw [hremove, htable]
    exact ⟨rfl, (Table.buckets_dropAt_perm h.valid.layout.wellFormed hb).map Bucket.toPair⟩

/-- Whatever the order of calls, a cursor returns each pair of its table at most once, goes on until it has returned all of them, and removes exactly those it is told to. -/
theorem run_exactlyOnce [EquivBEq K] {t : Table K V} (h : t.LayoutInvariant) (calls : List CursorCall) :
    (run calls (start t)).2.ExactlyOnce t (run calls (start t)).1 :=
  exactlyOnce_of_tracks h (tracks_run calls (tracks_start h))

/-- A chain of three, from which each pair but the second is removed. -/
theorem run_exactlyOnce_colliding : ∃ t : Table Nat Nat,
    t = (Table.build (fun _ => 7) .standard 0).extend [(1, 10), (2, 20), (3, 30)] ∧ t.LayoutInvariant ∧
      (run [.next, .remove, .next, .next, .remove, .next, .remove] (start t)).2.ExactlyOnce t
        (run [.next, .remove, .next, .next, .remove, .next, .remove] (start t)).1 := by
  have hlayout := (Table.keeps_extend (V := Nat) _ [(1, 10), (2, 20), (3, 30)]).layout
    (Table.layoutInvariant_build (fun _ : Nat => 7) .standard 0)
  exact ⟨_, rfl, hlayout, run_exactlyOnce hlayout _⟩

end Cursor

end FlatTable

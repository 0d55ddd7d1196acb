import FlatTable.Proofs.Chain

/-!
# Runs of a chain

Calls of `Chain.push` and `Chain.swapRemove` in any order, on a chain and on the list of its buckets. As long as every removal names an occupied cell, the two give the same buckets out and every reader of the chain reads the list. The cells come in pairs, and two more are made just when a bucket finds all of them occupied.
-/

namespace FlatTable

universe u v w

variable {K : Type u} {V : Type v}

/-- The list without its last element, which has replaced the one at an index. -/
def lastInto {α : Type u} (l : List α) (i : Nat) : List α :=
  match l.getLast? with
  | none => []
  | some last => (l.set i last).dropLast

theorem swapRemove_eq_lastInto {α : Type u} {l : List α} {i : Nat} (hi : i < l.length) :
    swapRemove l i = lastInto l i := by
  obtain ⟨x, y, hsplit, rfl⟩ := exists_split_of_getElem? (List.getElem?_eq_getElem hi)
  generalize l[x.length] = a at hsplit
  subst hsplit
  rw [swapRemove_append_cons]
  rcases List.eq_nil_or_concat y with rfl | ⟨y, last, rfl⟩
  · rw [lastInto, List.getLast?_concat]
    simp [lastToFront]
  · have hend : x ++ a :: (y ++ [last]) = x ++ a :: y ++ [last] := by simp
    have hset : (x ++ a :: y ++ [last]).set x.length last = x ++ last :: y ++ [last] := by simp
    rw [List.concat_eq_append, lastToFront_concat, hend, lastInto, List.getLast?_concat]
    dsimp only
    rw [hset, List.dropLast_concat]

/-- A call that changes a chain. -/
inductive ChainCall (K : Type u) (V : Type v)
  | push (b : Bucket K V)
  | swapRemove (i : Nat)

namespace ChainCall

/-- Makes the call; gives the bucket that it takes out. -/
def onChain : ChainCall K V → Chain K V → Option (Bucket K V) × Chain K V
  | push b, c => (none, c.push b)
  | swapRemove i, c => (c.get? i, c.swapRemove i)

/-- The call on a list: a new element comes last, and the last element replaces one that is taken out. -/
def onList : ChainCall K V → List (Bucket K V) → Option (Bucket K V) × List (Bucket K V)
  | push b, l => (none, l ++ [b])
  | swapRemove i, l => (l[i]?, lastInto l i)

/-- A removal names one of the elements. -/
def InRange (l : List (Bucket K V)) : ChainCall K V → Prop
  | push _ => True
  | swapRemove i => i < l.length

/-- Makes calls one after the other; gives what each of them takes out. -/
def run {σ : Type w} (make : ChainCall K V → σ → Option (Bucket K V) × σ) :
    List (ChainCall K V) → σ → List (Option (Bucket K V)) × σ
  | [], s => ([], s)
  | call :: calls, s =>
    let (b, s) := make call s
    let (bs, s) := run make calls s
    (b :: bs, s)

/-- Each removal names an element of the list as it is then. -/
def AllInRange : List (ChainCall K V) → List (Bucket K V) → Prop
  | [], _ => True
  | call :: calls, l => call.InRange l ∧ AllInRange calls (call.onList l).2

/-- The call brings a bucket to a chain that has no vacant cell. -/
def MeetsNoVacancy (c : Chain K V) (call : ChainCall K V) : Prop := (∃ b, call = push b) ∧ none ∉ c.cells.toList

end ChainCall

namespace Chain

/-! ### Reading a chain -/

/-- Every reader of a chain reads a list: the one that goes through the buckets, the one that looks into a cell, the one that looks for a key, and the one that counts. -/
structure ReadsAs [BEq K] (c : Chain K V) (l : List (Bucket K V)) : Prop where
  buckets_eq : c.buckets = l
  length_eq : c.length = l.length
  get?_eq : ∀ i, c.get? i = l[i]?
  position?_eq : ∀ hash k, c.position? hash k = l.findIdx? fun b => b.hash == hash && b.key == k

/-- The cells hold a list, the occupied ones first, and come in pairs. -/
structure Stores (c : Chain K V) (l : List (Bucket K V)) : Prop where
  cells_eq : ∃ vacant, c.cells.toList = l.map some ++ List.replicate vacant none
  even : c.cells.size % 2 = 0
  two_le : 2 ≤ c.cells.size

theorem readsAs_of_stores [BEq K] {c : Chain K V} {l : List (Bucket K V)} (h : c.Stores l) : c.ReadsAs l := by
  obtain ⟨vacant, hcells⟩ := h.cells_eq
  have hbuckets : c.buckets = l := buckets_of_cells hcells
  refine ⟨hbuckets, by rw [length_eq, hbuckets], fun i => ?_, fun hash k => ?_⟩
  · rw [get?_eq (compact_of_cells hcells), hbuckets]
  · rw [position?, hbuckets]
    rfl

theorem stores_ofBucket (b : Bucket K V) : (ofBucket b).Stores [b] where
  cells_eq := ⟨1, rfl⟩
  even := Nat.mod_self 2
  two_le := Nat.le_refl 2

/-! ### One call -/

theorem size_swapRemove (c : Chain K V) (i : Nat) : (c.swapRemove i).cells.size = c.cells.size := by
  rw [swapRemove]
  split
  · exact Array.size_setIfInBounds
  · exact Array.size_setIfInBounds.trans Array.size_setIfInBounds

/-- A chain that stores a list has no vacant cell if it has no more cells than the list has elements. -/
theorem none_mem_cells_iff {c : Chain K V} {l : List (Bucket K V)} {vacant : Nat}
    (h : c.cells.toList = packed l vacant) : none ∈ c.cells.toList ↔ vacant ≠ 0 := by
  rw [h, packed]
  simp

/-- Only a bucket that finds no vacant cell makes a chain longer, and by two cells. -/
theorem size_onChain {c : Chain K V} {l : List (Bucket K V)} (h : c.Stores l) (call : ChainCall K V) :
    (call.MeetsNoVacancy c → (call.onChain c).2.cells.size = c.cells.size + 2) ∧
      (¬call.MeetsNoVacancy c → (call.onChain c).2.cells.size = c.cells.size) := by
  obtain ⟨vacant, hcells⟩ := h.cells_eq
  have hvacant := none_mem_cells_iff hcells
  have hsize : c.cells.size = l.length + vacant := by
    rw [← Array.length_toList, hcells]
    exact length_packed l vacant
  cases call with
  | push b =>
    have hpushed : (c.push b).cells.size = (l ++ [b]).length + if vacant = 0 then 1 else vacant - 1 := by
      rw [← Array.length_toList, cells_push hcells, length_packed]
    rw [List.length_append, List.length_singleton] at hpushed
    constructor
    · rintro ⟨-, hfull⟩
      have hzero : vacant = 0 := by
        by_contra hne
        exact hfull (hvacant.mpr hne)
      rw [if_pos hzero] at hpushed
      change (c.push b).cells.size = _
      omega
    · intro hroom
      have hne : vacant ≠ 0 := hvacant.mp (by_contra fun hfull => hroom ⟨⟨b, rfl⟩, hfull⟩)
      rw [if_neg hne] at hpushed
      change (c.push b).cells.size = _
      omega
  | swapRemove i =>
    constructor
    · rintro ⟨⟨b, hb⟩, -⟩
      cases hb
    · intro _
      exact size_swapRemove c i

theorem stores_onChain {c : Chain K V} {l : List (Bucket K V)} (h : c.Stores l) {call : ChainCall K V}
    (hrange : call.InRange l) :
    (call.onChain c).1 = (call.onList l).1 ∧ (call.onChain c).2.Stores (call.onList l).2 := by
  obtain ⟨hgrows, hstays⟩ := size_onChain h call
  have heven := h.even
  have htwo := h.two_le
  obtain ⟨heven', htwo'⟩ : (call.onChain c).2.cells.size % 2 = 0 ∧ 2 ≤ (call.onChain c).2.cells.size := by
    by_cases hfull : call.MeetsNoVacancy c
    · have := hgrows hfull
      omega
    · have := hstays hfull
      omega
  obtain ⟨vacant, hcells⟩ := h.cells_eq
  have hbuckets : c.buckets = l := buckets_of_cells hcells
  have hcompact : c.Compact := compact_of_cells hcells
  cases call with
  | push b => exact ⟨rfl, ⟨_, cells_push hcells b⟩, heven', htwo'⟩
  | swapRemove i =>
    have hi : i < c.buckets.length := by
      rw [hbuckets]
      exact hrange
    obtain ⟨left, hremoved⟩ := cells_swapRemove hcompact hi
    rw [hbuckets, swapRemove_eq_lastInto hrange] at hremoved
    refine ⟨?_, ⟨left, hremoved⟩, heven', htwo'⟩
    change c.get? i = l[i]?
    rw [get?_eq hcompact, hbuckets]

/-! ### Runs -/

theorem stores_run {c : Chain K V} {l : List (Bucket K V)} (h : c.Stores l) {calls : List (ChainCall K V)}
    (hrange : ChainCall.AllInRange calls l) :
    (ChainCall.run ChainCall.onChain calls c).1 = (ChainCall.run ChainCall.onList calls l).1 ∧
      (ChainCall.run ChainCall.onChain calls c).2.Stores (ChainCall.run ChainCall.onList calls l).2 := by
  induction calls generalizing c l with
  | nil => exact ⟨rfl, h⟩
  | cons call calls ih =>
    obtain ⟨hfirst, hrest⟩ := hrange
    obtain ⟨hanswer, hstores⟩ := stores_onChain h hfirst
    obtain ⟨hanswers, hstores'⟩ := ih hstores hrest
    exact ⟨congr (congrArg List.cons hanswer) hanswers, hstores'⟩

/-- A chain made from one bucket behaves as a list through all pushes and all removals of buckets that it has: what is taken out and what every reader finds are the list's. Its occupied cells come first, its cells are an even number of at least two, and a further call makes two more exactly if it is a push that meets no vacant cell, and otherwise leaves their number as it is. -/
theorem run_acts_as_list [BEq K] (first : Bucket K V) {calls : List (ChainCall K V)}
    (hrange : ChainCall.AllInRange calls [first]) :
    (ChainCall.run ChainCall.onChain calls (ofBucket first)).1 = (ChainCall.run ChainCall.onList calls [first]).1 ∧
    (ChainCall.run ChainCall.onChain calls (ofBucket first)).2.ReadsAs (ChainCall.run ChainCall.onList calls [first]).2 ∧
    (ChainCall.run ChainCall.onChain calls (ofBucket first)).2.Stores (ChainCall.run ChainCall.onList calls [first]).2 ∧
    ∀ call : ChainCall K V,
      let c := (ChainCall.run ChainCall.onChain calls (ofBucket first)).2
      (call.MeetsNoVacancy c → (call.onChain c).2.cells.size = c.cells.size + 2) ∧
        (¬call.MeetsNoVacancy c → (call.onChain c).2.cells.size = c.cells.size) := by
  obtain ⟨hanswers, hstores⟩ := stores_run (stores_ofBucket first) hrange
  exact ⟨hanswers, readsAs_of_stores hstores, hstores, fun call => size_onChain hstores call⟩

/-- Three buckets, of which the first is taken out and then the one that came in its place; the chain has grown once. -/
theorem run_acts_as_list_emptied_cells : ∃ a b d : Bucket Nat Nat, ∃ calls : List (ChainCall Nat Nat),
    a = ⟨7, 1, 10⟩ ∧ b = ⟨7, 2, 20⟩ ∧ d = ⟨7, 3, 30⟩ ∧
      calls = [.push b, .push d, .swapRemove 0, .swapRemove 0] ∧ ChainCall.AllInRange calls [a] ∧
      (ChainCall.run ChainCall.onChain calls (ofBucket a)).1 = [none, none, some a, some d] ∧
      (ChainCall.run ChainCall.onChain calls (ofBucket a)).2.ReadsAs [b] ∧
      (ChainCall.run ChainCall.onChain calls (ofBucket a)).2.Stores [b] := by
  have hrange : ChainCall.AllInRange (K := Nat) (V := Nat)
      [.push ⟨7, 2, 20⟩, .push ⟨7, 3, 30⟩, .swapRemove 0, .swapRemove 0] [⟨7, 1, 10⟩] := by
    simp [ChainCall.AllInRange, ChainCall.InRange, ChainCall.onList, lastInto]
  obtain ⟨hanswers, hreads, hstores, -⟩ := run_acts_as_list _ hrange
  exact ⟨_, _, _, _, rfl, rfl, rfl, rfl, hrange, hanswers, hreads, hstores⟩

end Chain

end FlatTable

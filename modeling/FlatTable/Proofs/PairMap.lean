import FlatTable.Hash.Spread
import FlatTable.PairMap
import Mathlib.Data.List.Perm.Basic

/-!
# Association lists with distinct keys

Where no two keys of an association list are the same, the order of its pairs has no say in what it answers: looking up, changing and erasing find the one pair of a key wherever it stands.
-/

namespace FlatTable

universe u v

variable {K : Type u} {V : Type v}

/-- Keys that a table with this hash function takes for one: equal ones whose spread hashes are equal too. -/
def sameKey [BEq K] (hash : K → UInt64) (a b : K) : Bool := spread (hash a) == spread (hash b) && a == b

theorem sameKey_equivalence [BEq K] [EquivBEq K] (hash : K → UInt64) :
    Equivalence fun a b => sameKey hash a b = true where
  refl a := by simp [sameKey]
  symm {a b} h := by
    simp only [sameKey, Bool.and_eq_true, beq_iff_eq] at h ⊢
    exact ⟨h.1.symm, BEq.symm h.2⟩
  trans {a b c} h h' := by
    simp only [sameKey, Bool.and_eq_true, beq_iff_eq] at h h' ⊢
    exact ⟨h.1.trans h'.1, BEq.trans h.2 h'.2⟩

theorem spread_eq_of_sameKey [BEq K] {hash : K → UInt64} {a b : K} (h : sameKey hash a b = true) :
    spread (hash a) = spread (hash b) := by
  rw [sameKey, Bool.and_eq_true] at h
  exact eq_of_beq h.1

/-- Where equal keys hash equally, the keys taken for one are the equal ones. -/
theorem sameKey_eq_beq [BEq K] {hash : K → UInt64} (h : ∀ a b, (a == b) = true → hash a = hash b) :
    sameKey hash = fun a b => a == b := by
  funext a b
  rcases hab : a == b with - | -
  · rw [sameKey, hab, Bool.and_false]
  · rw [sameKey, hab, h a b hab, BEq.rfl]
    rfl

namespace PairMap

/-- No two keys are the same. -/
def Distinct (same : K → K → Bool) (pairs : List (K × V)) : Prop := pairs.Pairwise fun p q => same p.1 q.1 = false

/-- Changes the value of a key, whose stored key stays. -/
def modify (same : K → K → Bool) (m : PairMap K V) (k : K) (f : V → V) : PairMap K V :=
  ⟨m.pairs.map fun p => if same p.1 k then (p.1, f p.2) else p⟩

variable {same : K → K → Bool}

theorem insert_of_any {m : PairMap K V} {k : K} (h : (m.pairs.any fun p => same p.1 k) = true) (v : V) :
    m.insert same k v = m.modify same k fun _ => v := by
  rw [insert, if_pos h, modify]

theorem insert_of_not_any {m : PairMap K V} {k : K} (h : ∀ p ∈ m.pairs, same p.1 k = false) (v : V) :
    m.insert same k v = ⟨m.pairs ++ [(k, v)]⟩ := by
  rw [insert, if_neg (by simpa using h)]

theorem any_of_find? {m : PairMap K V} {k : K} {p : K × V} (h : m.find? same k = some p) :
    (m.pairs.any fun p => same p.1 k) = true := by
  rw [find?] at h
  exact List.any_eq_true.mpr ⟨p, List.mem_of_find?_eq_some h, by simpa using List.find?_some h⟩

theorem find?_eq_none {m : PairMap K V} {k : K} (h : ∀ p ∈ m.pairs, same p.1 k = false) : m.find? same k = none := by
  rw [find?, List.find?_eq_none]
  intro p hp
  simp [h p hp]

theorem modify_eq_self {m : PairMap K V} {k : K} (h : ∀ p ∈ m.pairs, same p.1 k = false) (f : V → V) :
    m.modify same k f = m := by
  have hmap : m.pairs.map (fun p => if same p.1 k then (p.1, f p.2) else p) = m.pairs.map id := by
    apply List.map_congr_left
    intro p hp
    rw [h p hp]
    rfl
  rw [modify, hmap, List.map_id]

theorem size_modify (m : PairMap K V) (k : K) (f : V → V) : (m.modify same k f).size = m.size := by
  rw [modify, size, size, List.length_map]

theorem size_insert (m : PairMap K V) (k : K) (v : V) :
    (m.insert same k v).size = if m.pairs.any fun p => same p.1 k then m.size else m.size + 1 := by
  rw [insert]
  split <;> simp [size]

theorem size_foldl_insert_le (m : PairMap K V) (pairs : List (K × V)) :
    (pairs.foldl (fun m p => m.insert same p.1 p.2) m).size ≤ m.size + pairs.length := by
  induction pairs generalizing m with
  | nil => exact Nat.le_refl _
  | cons p pairs ih =>
    have hrest := ih (m.insert same p.1 p.2)
    have hfirst : (m.insert same p.1 p.2).size ≤ m.size + 1 := by
      rw [size_insert]
      split <;> omega
    rw [List.foldl_cons, List.length_cons]
    omega

/-- If every pair counts, no two of them have the same key. -/
theorem distinct_of_size_foldl_insert {m : PairMap K V} (hm : Distinct same m.pairs) {pairs : List (K × V)}
    (hsize : (pairs.foldl (fun m p => m.insert same p.1 p.2) m).size = m.size + pairs.length) :
    Distinct same (m.pairs ++ pairs) := by
  induction pairs generalizing m with
  | nil => rwa [List.append_nil]
  | cons p pairs ih =>
    have hfirst : (m.insert same p.1 p.2).size = _ := size_insert m p.1 p.2
    rw [List.foldl_cons, List.length_cons] at hsize
    rcases hfound : m.pairs.any fun q => same q.1 p.1 with - | -
    · have hnone : ∀ q ∈ m.pairs, same q.1 p.1 = false := by simpa using hfound
      rw [hfound] at hfirst
      have hdistinct : Distinct same (m.insert same p.1 p.2).pairs := by
        rw [insert_of_not_any hnone, Distinct, List.pairwise_append]
        refine ⟨hm, List.pairwise_singleton _ _, ?_⟩
        intro q hq r hr
        rw [List.mem_singleton.mp hr]
        exact hnone q hq
      have hrest := ih hdistinct (by rw [hsize, hfirst, if_neg Bool.false_ne_true]; omega)
      rw [insert_of_not_any hnone, List.append_assoc] at hrest
      exact hrest
    · have hle : (pairs.foldl (fun m p => m.insert same p.1 p.2) (m.insert same p.1 p.2)).size ≤ _ :=
        size_foldl_insert_le _ pairs
      rw [hfound, if_pos rfl] at hfirst
      omega

theorem erase_eq_self {m : PairMap K V} {k : K} (h : ∀ p ∈ m.pairs, same p.1 k = false) : m.erase same k = m := by
  rw [erase, List.filter_eq_self.mpr]
  intro p hp
  rw [h p hp]
  rfl

section Equivalence

variable (hsame : Equivalence fun a b => same a b = true)
include hsame

theorem same_comm (a b : K) : same a b = same b a := by
  rw [Bool.eq_iff_iff]
  exact ⟨hsame.symm, hsame.symm⟩

theorem distinct_of_perm {l r : List (K × V)} (h : l.Perm r) (hl : Distinct same l) : Distinct same r := by
  refine (h.pairwise_iff ?_).mp hl
  intro p q hpq
  rwa [same_comm hsame]

/-- Beside the pair of a key, no other pair belongs to it. -/
theorem others_of_split {x y : List (K × V)} {p : K × V} (h : Distinct same (x ++ p :: y)) {k : K}
    (hk : same p.1 k = true) : ∀ q ∈ x ++ y, same q.1 k = false := by
  have hhead : Distinct same (p :: (x ++ y)) := distinct_of_perm hsame List.perm_middle h
  intro q hq
  have hpq := (List.pairwise_cons.mp hhead).1 q hq
  rw [Bool.eq_false_iff]
  intro hqk
  rw [hsame.trans hk (hsame.symm hqk)] at hpq
  exact Bool.noConfusion hpq

theorem find?_of_mem {m : PairMap K V} (h : Distinct same m.pairs) {p : K × V} (hp : p ∈ m.pairs) {k : K}
    (hk : same p.1 k = true) : m.find? same k = some p := by
  obtain ⟨x, y, hsplit⟩ := List.append_of_mem hp
  rw [hsplit] at h
  have hothers := others_of_split hsame h hk
  have hx := find?_eq_none (m := ⟨x⟩) fun q hq => hothers q (List.mem_append_left y hq)
  rw [find?] at hx
  rw [find?, hsplit, List.find?_append, hx]
  simp [hk]

theorem modify_of_split {x y : List (K × V)} {p : K × V} (h : Distinct same (x ++ p :: y)) {k : K}
    (hk : same p.1 k = true) (f : V → V) :
    (⟨x ++ p :: y⟩ : PairMap K V).modify same k f = ⟨x ++ (p.1, f p.2) :: y⟩ := by
  have hothers := others_of_split hsame h hk
  have hx := modify_eq_self (m := ⟨x⟩) (fun q hq => hothers q (List.mem_append_left y hq)) f
  have hy := modify_eq_self (m := ⟨y⟩) (fun q hq => hothers q (List.mem_append_right x hq)) f
  rw [modify, PairMap.mk.injEq] at hx hy
  rw [modify, List.map_append, List.map_cons, hx, hy, if_pos hk]

theorem find?_modify_of_find? {m : PairMap K V} (h : Distinct same m.pairs) {k : K} {p : K × V}
    (hp : m.find? same k = some p) (f : V → V) : (m.modify same k f).find? same k = some (p.1, f p.2) := by
  have hk : same p.1 k = true := by simpa using List.find?_some hp
  obtain ⟨x, y, hsplit⟩ := List.append_of_mem (List.mem_of_find?_eq_some hp)
  rw [hsplit] at h
  have hm : m = ⟨x ++ p :: y⟩ := by rw [← hsplit]
  have hkeys : Distinct same (x ++ (p.1, f p.2) :: y) := by
    simpa [Distinct, List.pairwise_append] using h
  rw [hm, modify_of_split hsame h hk]
  exact find?_of_mem hsame hkeys (by simp) hk

/-- Inserting pairs with distinct keys appends them. -/
theorem foldl_insert_of_distinct (stored pairs : List (K × V)) (h : Distinct same (stored ++ pairs)) :
    pairs.foldl (fun m p => m.insert same p.1 p.2) (⟨stored⟩ : PairMap K V) = ⟨stored ++ pairs⟩ := by
  induction pairs generalizing stored with
  | nil => rw [List.append_nil, List.foldl_nil]
  | cons p pairs ih =>
    have hothers := others_of_split hsame h (hsame.refl p.1)
    have hfirst : (⟨stored⟩ : PairMap K V).insert same p.1 p.2 = ⟨stored ++ [p]⟩ :=
      insert_of_not_any (fun q hq => hothers q (List.mem_append_left pairs hq)) p.2
    rw [List.append_cons] at h
    rw [List.foldl_cons, hfirst, ih (stored ++ [p]) h, ← List.append_cons]

theorem erase_of_split {x y : List (K × V)} {p : K × V} (h : Distinct same (x ++ p :: y)) {k : K}
    (hk : same p.1 k = true) : (⟨x ++ p :: y⟩ : PairMap K V).erase same k = ⟨x ++ y⟩ := by
  have hrest := erase_eq_self (m := ⟨x ++ y⟩) (others_of_split hsame h hk)
  rw [erase, PairMap.mk.injEq, List.filter_append] at hrest
  rw [erase, List.filter_append, List.filter_cons_of_neg (by simp [hk]), hrest]

/-- The pair of a key and the map without the key make up the map. -/
theorem cons_erase_perm {m : PairMap K V} (h : Distinct same m.pairs) {k : K} {p : K × V}
    (hp : m.find? same k = some p) : (p :: (m.erase same k).pairs).Perm m.pairs := by
  have hk : same p.1 k = true := by simpa using List.find?_some hp
  obtain ⟨x, y, hsplit⟩ := List.append_of_mem (List.mem_of_find?_eq_some hp)
  have hm : m = ⟨x ++ p :: y⟩ := by rw [← hsplit]
  rw [hsplit] at h
  rw [hm, erase_of_split hsame h hk]
  exact List.perm_middle.symm

end Equivalence

end PairMap

end FlatTable

import FlatTable.Element.Kinds
import FlatTable.Proofs.Reachable
import FlatTable.Table.Content
import Mathlib.Data.List.Forall2

/-!
# Equality of tables

Tables are compared by their sizes and by looking the pairs of one up in the other. Distinct keys have distinct counterparts, so where the sizes agree no pair of the other table is left over: the pairs of equal tables can be matched one to one, whatever their layouts. Everything else follows from the matching.
-/

namespace FlatTable

universe u v

/-- Equal arguments have equal images. -/
def Respects {α : Type u} {β : Type v} [BEq α] (f : α → β) : Prop := ∀ a b, (a == b) = true → f a = f b

variable {K : Type u} {V : Type v}

theorem Double.beq_comm (x y : Double) : (x == y) = (y == x) := by
  show (!x.isNaN && !y.isNaN && (x.bits == y.bits || (x.magnitude == 0 && y.magnitude == 0))) =
    (!y.isNaN && !x.isNaN && (y.bits == x.bits || (y.magnitude == 0 && x.magnitude == 0)))
  rw [Bool.and_comm (!x.isNaN), Bool.and_comm (x.magnitude == 0), Bool.beq_comm]

/-! ### Matching pairs -/

/-- Distinct pairs that each have a counterpart of an equal key have distinct counterparts. -/
theorem exists_subperm_of_counterparts [BEq K] [EquivBEq K] {R : K × V → K × V → Prop}
    (hkey : ∀ p q, R p q → (p.1 == q.1) = true) {l r : List (K × V)} (hl : PairMap.Distinct (fun a b => a == b) l)
    (h : ∀ p ∈ l, ∃ q ∈ r, R p q) : ∃ r', r'.Subperm r ∧ List.Forall₂ R l r' := by
  induction l generalizing r with
  | nil => exact ⟨[], List.nil_subperm, .nil⟩
  | cons p l ih =>
    obtain ⟨hp, hl⟩ := List.pairwise_cons.mp hl
    obtain ⟨q, hq, hpq⟩ := h p List.mem_cons_self
    obtain ⟨x, y, rfl⟩ := List.append_of_mem hq
    have hrest : ∀ p' ∈ l, ∃ q' ∈ x ++ y, R p' q' := by
      intro p' hp'
      obtain ⟨q', hq', hpq'⟩ := h p' (List.mem_cons_of_mem p hp')
      rcases List.mem_append.mp hq' with hx | hcons
      · exact ⟨q', List.mem_append_left y hx, hpq'⟩
      · rcases List.mem_cons.mp hcons with rfl | hy
        · -- Two pairs with one counterpart would have equal keys.
          have hsame := BEq.trans (hkey _ _ hpq) (BEq.symm (hkey _ _ hpq'))
          have hne : (p.1 == p'.1) = false := hp p' hp'
          rw [hne] at hsame
          exact Bool.noConfusion hsame
        · exact ⟨q', List.mem_append_right x hy, hpq'⟩
    obtain ⟨r', hsub, hmatch⟩ := ih hl hrest
    refine ⟨q :: r', ?_, .cons hpq hmatch⟩
    exact ((List.subperm_cons q).mpr hsub).trans List.perm_middle.symm.subperm

theorem exists_of_forall₂_left {R : K × V → K × V → Prop} {l r : List (K × V)} (h : List.Forall₂ R l r) :
    ∀ p ∈ l, ∃ q ∈ r, R p q := by
  induction h with
  | nil => simp
  | cons hpq _ ih =>
    intro p hp
    rcases List.mem_cons.mp hp with rfl | hp
    · exact ⟨_, List.mem_cons_self, hpq⟩
    · obtain ⟨q, hq, hR⟩ := ih p hp
      exact ⟨q, List.mem_cons_of_mem _ hq, hR⟩

variable [BEq K] [BEq V]

/-- The pairs have equal keys and equal values. -/
def Alike (p q : K × V) : Prop := (p.1 == q.1) = true ∧ (p.2 == q.2) = true

/-- The pairs of the two lists can be matched one to one, each with one that has an equal key and an equal value. -/
def Corresponds (l r : List (K × V)) : Prop := ∃ r', r'.Perm r ∧ List.Forall₂ Alike l r'

theorem Corresponds.exists_right {l r : List (K × V)} (h : Corresponds l r) : ∀ p ∈ l, ∃ q ∈ r, Alike p q := by
  obtain ⟨r', hperm, hmatch⟩ := h
  intro p hp
  obtain ⟨q, hq, hpq⟩ := exists_of_forall₂_left hmatch p hp
  exact ⟨q, hperm.mem_iff.mp hq, hpq⟩

theorem Corresponds.exists_left {l r : List (K × V)} (h : Corresponds l r) : ∀ q ∈ r, ∃ p ∈ l, Alike p q := by
  obtain ⟨r', hperm, hmatch⟩ := h
  intro q hq
  exact exists_of_forall₂_left hmatch.flip q (hperm.mem_iff.mpr hq)

theorem Corresponds.length_eq {l r : List (K × V)} (h : Corresponds l r) : l.length = r.length := by
  obtain ⟨r', hperm, hmatch⟩ := h
  rw [hmatch.length_eq, hperm.length_eq]

/-- One inclusion and equal lengths are enough. -/
theorem corresponds_of_length [EquivBEq K] {l r : List (K × V)} (hl : PairMap.Distinct (fun a b => a == b) l)
    (hlen : r.length ≤ l.length) (h : ∀ p ∈ l, ∃ q ∈ r, Alike p q) : Corresponds l r := by
  obtain ⟨r', hsub, hmatch⟩ := exists_subperm_of_counterparts (fun _ _ hpq => hpq.1) hl h
  exact ⟨r', hsub.perm_of_length_le (by rw [← hmatch.length_eq]; exact hlen), hmatch⟩

theorem Corresponds.symm [EquivBEq K] (hsymm : ∀ x y : V, (x == y) = true → (y == x) = true) {l r : List (K × V)}
    (h : Corresponds l r) : Corresponds r l := by
  obtain ⟨r', hperm, hmatch⟩ := h
  have hback : List.Forall₂ Alike r' l := by
    refine (hmatch.imp ?_).flip
    rintro p q ⟨hkey, hvalue⟩
    exact ⟨BEq.symm hkey, hsymm _ _ hvalue⟩
  obtain ⟨l', hmatch', hperm'⟩ := List.perm_comp_forall₂ hperm.symm hback
  exact ⟨l', hperm', hmatch'⟩

theorem forall₂_alike_trans [EquivBEq K]
    (htrans : ∀ x y z : V, (x == y) = true → (y == z) = true → (x == z) = true) {l m r : List (K × V)}
    (h : List.Forall₂ Alike l m) (h' : List.Forall₂ Alike m r) : List.Forall₂ Alike l r := by
  induction h generalizing r with
  | nil => exact h'
  | cons hpq _ ih =>
    cases h' with
    | cons hqs hrest => exact .cons ⟨BEq.trans hpq.1 hqs.1, htrans _ _ _ hpq.2 hqs.2⟩ (ih hrest)

theorem Corresponds.trans [EquivBEq K]
    (htrans : ∀ x y z : V, (x == y) = true → (y == z) = true → (x == z) = true) {l m r : List (K × V)}
    (h : Corresponds l m) (h' : Corresponds m r) : Corresponds l r := by
  obtain ⟨m', hperm, hmatch⟩ := h
  obtain ⟨r', hperm', hmatch'⟩ := h'
  obtain ⟨r'', hmatch'', hperm''⟩ := List.perm_comp_forall₂ hperm hmatch'
  exact ⟨r'', hperm''.trans hperm', forall₂_alike_trans htrans hmatch hmatch''⟩

/-- Where alike pairs have the same number, corresponding lists have the same sum of numbers. -/
theorem foldl_add_of_corresponds {f : K × V → UInt64} (hf : ∀ p q, Alike p q → f p = f q) {l r : List (K × V)}
    (h : Corresponds l r) : (l.map f).foldl (· + ·) 0 = (r.map f).foldl (· + ·) 0 := by
  obtain ⟨r', hperm, hmatch⟩ := h
  have hmap : l.map f = r'.map f := by
    clear hperm
    induction hmatch with
    | nil => rfl
    | cons hpq _ ih => rw [List.map_cons, List.map_cons, hf _ _ hpq, ih]
  rw [hmap]
  exact (hperm.map f).foldl_eq 0

namespace Table

/-! ### Comparing tables -/

section Comparing

variable [EquivBEq K] {t u : Table K V}

omit [EquivBEq K] [BEq V] in
theorem distinct_keys (h : t.LayoutInvariant) (hhash : Respects t.hash) :
    PairMap.Distinct (fun a b => a == b) t.toList := by
  have hdistinct := distinct_toList h
  rwa [sameKey_eq_beq hhash] at hdistinct

omit [BEq V] in
theorem get?_eq_some_iff (h : u.LayoutInvariant) (hhash : Respects u.hash) {k : K} {y : V} :
    u.get? k = some y ↔ ∃ q ∈ u.toList, (k == q.1) = true ∧ q.2 = y := by
  have hequiv := sameKey_equivalence u.hash
  have hdistinct := distinct_toList h
  rw [get?_eq (models_toList h)]
  rw [sameKey_eq_beq hhash] at hequiv hdistinct ⊢
  rw [Option.map_eq_some_iff]
  constructor
  · rintro ⟨q, hfind, rfl⟩
    exact ⟨q, List.mem_of_find?_eq_some hfind, BEq.symm (by simpa using List.find?_some hfind), rfl⟩
  · rintro ⟨q, hq, hkey, rfl⟩
    exact ⟨q, PairMap.find?_of_mem hequiv hdistinct hq (BEq.symm hkey), rfl⟩

theorem equals_iff_size (hu : u.LayoutInvariant) (huhash : Respects u.hash) :
    t.equals u = true ↔ t.size = u.size ∧ ∀ p ∈ t.toList, ∃ q ∈ u.toList, Alike p q := by
  have hfound : ∀ b : Bucket K V, ((u.get? b.key).any (b.value == ·)) = true ↔ ∃ q ∈ u.toList, Alike b.toPair q := by
    intro b
    rw [Option.any_eq_true]
    constructor
    · rintro ⟨y, hy, hvalue⟩
      obtain ⟨q, hq, hkey, rfl⟩ := (get?_eq_some_iff hu huhash).mp hy
      exact ⟨q, hq, hkey, hvalue⟩
    · rintro ⟨q, hq, hkey, hvalue⟩
      exact ⟨q.2, (get?_eq_some_iff hu huhash).mpr ⟨q, hq, hkey, rfl⟩, hvalue⟩
  rw [equals, Bool.and_eq_true, beq_iff_eq, List.all_eq_true, toList, List.forall_mem_map]
  simp only [hfound]

theorem equals_iff_corresponds (ht : t.LayoutInvariant) (hthash : Respects t.hash) (hu : u.LayoutInvariant)
    (huhash : Respects u.hash) : t.equals u = true ↔ Corresponds t.toList u.toList := by
  have htlen := ht.length_toList
  have hulen := hu.length_toList
  rw [equals_iff_size hu huhash]
  constructor
  · rintro ⟨hsize, hright⟩
    exact corresponds_of_length (distinct_keys ht hthash) (by omega) hright
  · intro h
    exact ⟨by rw [← htlen, ← hulen, h.length_eq], h.exists_right⟩

/-- Equal tables answer every lookup alike, and tables that do so are equal. -/
theorem corresponds_iff_get? (ht : t.LayoutInvariant) (hthash : Respects t.hash) (hu : u.LayoutInvariant)
    (huhash : Respects u.hash) : Corresponds t.toList u.toList ↔
      ∀ k, Option.Rel (fun x y => (x == y) = true) (t.get? k) (u.get? k) := by
  constructor
  · intro h k
    rcases htk : t.get? k with - | x
    · rcases huk : u.get? k with - | y
      · exact .none
      · obtain ⟨q, hq, hkey, -⟩ := (get?_eq_some_iff hu huhash).mp huk
        obtain ⟨p, hp, hpq⟩ := h.exists_left q hq
        have hsome := (get?_eq_some_iff ht hthash).mpr ⟨p, hp, BEq.trans hkey (BEq.symm hpq.1), rfl⟩
        rw [htk] at hsome
        simp at hsome
    · obtain ⟨p, hp, hkey, rfl⟩ := (get?_eq_some_iff ht hthash).mp htk
      obtain ⟨q, hq, hpq⟩ := h.exists_right p hp
      rw [(get?_eq_some_iff hu huhash).mpr ⟨q, hq, BEq.trans hkey hpq.1, rfl⟩]
      exact .some hpq.2
  · intro h
    have hright : ∀ p ∈ t.toList, ∃ q ∈ u.toList, Alike p q := by
      intro p hp
      have hrel := h p.1
      rw [(get?_eq_some_iff ht hthash).mpr ⟨p, hp, BEq.refl p.1, rfl⟩] at hrel
      rcases huk : u.get? p.1 with - | y <;> rw [huk] at hrel
      · cases hrel
      · obtain ⟨q, hq, hkey, rfl⟩ := (get?_eq_some_iff hu huhash).mp huk
        cases hrel with
        | some hvalue => exact ⟨q, hq, hkey, hvalue⟩
    have hleft : ∀ q ∈ u.toList, ∃ p ∈ t.toList, (q.1 == p.1) = true := by
      intro q hq
      have hrel := h q.1
      rw [(get?_eq_some_iff hu huhash).mpr ⟨q, hq, BEq.refl q.1, rfl⟩] at hrel
      rcases htk : t.get? q.1 with - | x <;> rw [htk] at hrel
      · cases hrel
      · obtain ⟨p, hp, hkey, -⟩ := (get?_eq_some_iff ht hthash).mp htk
        exact ⟨p, hp, hkey⟩
    -- Counting the keys of the other table by those of this one bounds its length.
    obtain ⟨l', hsub, hmatch⟩ := exists_subperm_of_counterparts (fun _ _ hpq => hpq) (distinct_keys hu huhash) hleft
    refine corresponds_of_length (distinct_keys ht hthash) ?_ hright
    rw [hmatch.length_eq]
    exact hsub.length_le

end Comparing

section Contents

variable {K V : Type} [BEq K] [EquivBEq K] [BEq V] {t u : Table K V}

/-- An ordinary map is compared with as a table of the same pairs is. -/
theorem equalsMap_eq_equals (hsymm : ∀ x y : V, (x == y) = true → (y == x) = true) (hu : u.LayoutInvariant)
    (huhash : Respects u.hash) {m : PairMap K V} (hm : m.pairs.Perm u.toList) :
    t.equalsMap (fun a b => a == b) m = t.equals u := by
  have hmodels : u.Models m := ⟨hu, hm.symm⟩
  have hcomm : ∀ x y : V, (x == y) = (y == x) := by
    intro x y
    rw [Bool.eq_iff_iff]
    exact ⟨hsymm x y, hsymm y x⟩
  have hlookup : ∀ b : Bucket K V, (m.find? (fun a b => a == b) b.key).any (·.2 == b.value) =
      (u.get? b.key).any (b.value == ·) := by
    intro b
    rw [get?_eq hmodels, sameKey_eq_beq huhash, Option.any_map]
    rcases m.find? (fun a b => a == b) b.key with - | q
    · rfl
    · exact hcomm q.2 b.value
  rw [equalsMap, equals, size_eq_of_models hmodels]
  simp only [hlookup]

omit [BEq K] [EquivBEq K] [BEq V] in
theorem contentSum_eq [Streamed K] [Streamed V] (t : Table K V) :
    t.contentSum = (t.toList.map fun p => contentHash p.1 ^^^ contentHash p.2).foldl (· + ·) 0 := by
  rw [contentSum, toList, List.map_map, List.foldl_map]
  rfl

omit [EquivBEq K] in
theorem contentSum_eq_of_corresponds [Streamed K] [Streamed V] (hkey : Respects (contentHash : K → UInt64))
    (hvalue : Respects (contentHash : V → UInt64)) (h : Corresponds t.toList u.toList) :
    t.contentSum = u.contentSum := by
  rw [contentSum_eq, contentSum_eq]
  apply foldl_add_of_corresponds _ h
  rintro p q ⟨hkeys, hvalues⟩
  rw [hkey _ _ hkeys, hvalue _ _ hvalues]

/-- Tables are equal just when they hold the same map, so equality does not depend on how they came about, nor on which table asks. -/
theorem equals_is_map_equality (hsymm : ∀ x y : V, (x == y) = true → (y == x) = true) (ht : t.Reachable)
    (hthash : Respects t.hash) (hu : u.Reachable) (huhash : Respects u.hash) :
    (t.equals u = true ↔ Corresponds t.toList u.toList) ∧
      (t.equals u = true ↔ ∀ k, Option.Rel (fun x y => (x == y) = true) (t.get? k) (u.get? k)) ∧
      t.equals u = u.equals t ∧
      ((∀ x y z : V, (x == y) = true → (y == z) = true → (x == z) = true) → ∀ w : Table K V, w.Reachable →
        Respects w.hash → t.equals u = true → u.equals w = true → t.equals w = true) ∧
      (∀ m : PairMap K V, m.pairs.Perm u.toList → t.equalsMap (fun a b => a == b) m = t.equals u) ∧
      ∀ [Streamed K] [Streamed V], Respects (contentHash : K → UInt64) → Respects (contentHash : V → UInt64) →
        t.equals u = true → t.contentSum = u.contentSum ∧ t.digest = u.digest := by
  have htl := (sound_of_reachable ht).layout
  have hul := (sound_of_reachable hu).layout
  have hiff := equals_iff_corresponds htl hthash hul huhash
  refine ⟨hiff, hiff.trans (corresponds_iff_get? htl hthash hul huhash), ?_, ?_, ?_, ?_⟩
  · rw [Bool.eq_iff_iff, hiff, equals_iff_corresponds hul huhash htl hthash]
    exact ⟨Corresponds.symm hsymm, Corresponds.symm hsymm⟩
  · intro htrans w hw hwhash htu huw
    have hwl := (sound_of_reachable hw).layout
    rw [equals_iff_corresponds hul huhash hwl hwhash] at huw
    rw [equals_iff_corresponds htl hthash hwl hwhash]
    exact (hiff.mp htu).trans htrans huw
  · intro m hm
    exact equalsMap_eq_equals hsymm hul huhash hm
  · intro _ _ hkey hvalue htu
    have hsum := contentSum_eq_of_corresponds hkey hvalue (hiff.mp htu)
    exact ⟨hsum, by rw [digest, digest, hsum]⟩

/-- A chain of two and a larger table that lost a pair; the zeros that they hold under one key differ in sign. -/
theorem equals_is_map_equality_signed_zeros : ∃ t u : Table UInt64 Double,
    t = (build (fun _ => 7) .standard 0).extend [(1, ⟨0⟩), (2, ⟨0x3ff0000000000000⟩)] ∧
      u = (((build (fun k => k) { initialCapacity := 64 } 1).extend
        [(5, ⟨0⟩), (2, ⟨0x3ff0000000000000⟩), (1, ⟨0x8000000000000000⟩)]).remove 5).2 ∧
      t.Reachable ∧ u.Reachable ∧ t.equals u = true ∧ Corresponds t.toList u.toList ∧ t.equals u = u.equals t := by
  have hsymm : ∀ x y : Double, (x == y) = true → (y == x) = true := by
    intro x y h
    rwa [Double.beq_comm]
  have ht := Reachable.made (Made.collect (fun _ : UInt64 => 7) [(1, (⟨0⟩ : Double)), (2, ⟨0x3ff0000000000000⟩)] 0)
  have hcreate : create (fun k => k) { initialCapacity := 64 } 1 =
      .ok (build (fun k => k) { initialCapacity := 64 } 1 : Table UInt64 Double) := rfl
  have hextended := (Reachable.made (.create hcreate)).step
    (.extend [(5, ⟨0⟩), (2, ⟨0x3ff0000000000000⟩), (1, ⟨0x8000000000000000⟩)])
  have hu := hextended.step (.remove 5)
  have hrespects : ∀ f : UInt64 → UInt64, Respects f := fun f a b hab => congrArg f (eq_of_beq hab)
  have hsame := equals_is_map_equality hsymm ht (hrespects _) hu (hrespects _)
  refine ⟨_, _, rfl, rfl, ht, hu, ?_, ?_, hsame.2.2.1⟩
  · decide +kernel
  · exact hsame.1.mp (by decide +kernel)

end Contents

end Table

end FlatTable

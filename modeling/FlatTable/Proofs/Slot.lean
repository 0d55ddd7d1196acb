import FlatTable.Slot
import FlatTable.Proofs.Chain

/-!
# Slots as lists

A slot stands for its list of buckets, and whether it is empty, a pair or a chain is settled by the length of that list. A location with a live bucket is an index into the list; adding appends, and removing swaps the last bucket in.
-/

namespace FlatTable

universe u v

variable {K : Type u} {V : Type v}

/-- The cell of a location; a pair stands in the first. -/
def Location.cell : Location → Nat
  | .primary _ => 0
  | .chained _ i => i

namespace Slot

/-- A chain is compact and holds at least two buckets. -/
def WellFormed : Slot K V → Prop
  | empty => True
  | pair _ => True
  | chained c => c.Compact ∧ 2 ≤ c.buckets.length

/-! ### Adding -/

theorem eq_empty_of_buckets {s : Slot K V} (h : s.WellFormed) (hnil : s.buckets = []) : s = empty := by
  cases s with
  | empty => rfl
  | pair b => cases hnil
  | chained c =>
    have hlength : 2 ≤ c.buckets.length := h.2
    have hchain : c.buckets = [] := hnil
    rw [hchain] at hlength
    cases hlength

theorem buckets_add {s : Slot K V} (h : s.WellFormed) (b : Bucket K V) : (s.add b).buckets = s.buckets ++ [b] := by
  cases s with
  | empty => rfl
  | pair first => exact Chain.buckets_push (Chain.compact_ofBucket first) b
  | chained c => exact Chain.buckets_push h.1 b

theorem wellFormed_add {s : Slot K V} (h : s.WellFormed) (b : Bucket K V) : (s.add b).WellFormed := by
  cases s with
  | empty => trivial
  | pair first =>
    refine ⟨Chain.compact_push (Chain.compact_ofBucket first) b, ?_⟩
    rw [Chain.buckets_push (Chain.compact_ofBucket first)]
    exact Nat.le_refl 2
  | chained c =>
    refine ⟨Chain.compact_push h.1 b, ?_⟩
    rw [Chain.buckets_push h.1, List.length_append]
    have := h.2
    omega

/-! ### Live locations -/

/-- A live location has the shape of its slot. -/
theorem shape_of_bucketAt? {s : Slot K V} {loc : Location} {b : Bucket K V} (hb : s.bucketAt? loc = some b) :
    (∃ i, loc = .primary i ∧ s = pair b) ∨ ∃ i j c, loc = .chained i j ∧ s = chained c ∧ c.get? j = some b := by
  cases s with
  | empty => cases loc <;> simp [bucketAt?] at hb
  | pair first => cases loc with
    | primary i => exact Or.inl ⟨i, rfl, congrArg pair (Option.some.inj hb)⟩
    | chained i j => simp [bucketAt?] at hb
  | chained c => cases loc with
    | primary i => simp [bucketAt?] at hb
    | chained i j => exact Or.inr ⟨i, j, c, rfl, rfl, hb⟩

theorem getElem?_of_bucketAt? {s : Slot K V} (h : s.WellFormed) {loc : Location} {b : Bucket K V}
    (hb : s.bucketAt? loc = some b) : s.buckets[loc.cell]? = some b := by
  obtain ⟨i, rfl, rfl⟩ | ⟨i, j, c, rfl, rfl, hj⟩ := shape_of_bucketAt? hb
  · rfl
  · rwa [Chain.get?_eq h.1] at hj

theorem exists_split {s : Slot K V} (h : s.WellFormed) {loc : Location} {b : Bucket K V}
    (hb : s.bucketAt? loc = some b) : ∃ x y, s.buckets = x ++ b :: y ∧ x.length = loc.cell :=
  exists_split_of_getElem? (getElem?_of_bucketAt? h hb)

theorem bucketAt?_vacancy {s : Slot K V} (h : s.WellFormed) (i : Nat) (b : Bucket K V) :
    (s.add b).bucketAt? (s.vacancy i) = some b := by
  cases s with
  | empty => rfl
  | pair first =>
    change ((Chain.ofBucket first).push b).get? 1 = some b
    have hfirst := Chain.compact_ofBucket first
    rw [Chain.get?_eq (Chain.compact_push hfirst b), Chain.buckets_push hfirst]
    rfl
  | chained c =>
    change (c.push b).get? c.length = some b
    rw [Chain.get?_eq (Chain.compact_push h.1 b), Chain.buckets_push h.1, Chain.length_eq]
    simp

theorem slot_vacancy (s : Slot K V) (i : Nat) : (s.vacancy i).slot = i := by cases s <;> rfl

section Locate

variable [BEq K]

theorem bucketAt?_of_locate? {s : Slot K V} (h : s.WellFormed) {i : Nat} {hash : UInt32} {k : K} {loc : Location}
    (hloc : s.locate? i hash k = some loc) : loc.slot = i ∧ ∃ b, s.bucketAt? loc = some b ∧ b.isFor hash k := by
  cases s with
  | empty => simp [locate?] at hloc
  | pair b =>
    simp only [locate?, Option.ite_none_right_eq_some, Option.some.injEq] at hloc
    obtain ⟨hfor, rfl⟩ := hloc
    exact ⟨rfl, b, rfl, hfor⟩
  | chained c =>
    obtain ⟨j, hj, rfl⟩ := Option.map_eq_some_iff.mp hloc
    obtain ⟨hlt, hfor, -⟩ := List.findIdx?_eq_some_iff_getElem.mp hj
    refine ⟨rfl, c.buckets[j], ?_, hfor⟩
    change c.get? j = _
    rw [Chain.get?_eq h.1, List.getElem?_eq_getElem hlt]

theorem locate?_eq_none {s : Slot K V} {i : Nat} {hash : UInt32} {k : K} :
    s.locate? i hash k = none ↔ ∀ b ∈ s.buckets, b.isFor hash k = false := by
  cases s with
  | empty => simp [locate?, buckets]
  | pair b => simp [locate?, buckets]
  | chained c => simp [locate?, buckets, Chain.position?]

end Locate

/-! ### Changing a value -/

theorem buckets_modifyValue {s : Slot K V} (h : s.WellFormed) {loc : Location} {b : Bucket K V}
    (hb : s.bucketAt? loc = some b) (f : V → V) :
    (s.modifyValue f loc).buckets = s.buckets.modify loc.cell (Bucket.mapValue f) := by
  obtain ⟨i, rfl, rfl⟩ | ⟨i, j, c, rfl, rfl, -⟩ := shape_of_bucketAt? hb
  · rfl
  · exact Chain.buckets_modifyValue h.1 j f

theorem wellFormed_modifyValue {s : Slot K V} (h : s.WellFormed) (loc : Location) (f : V → V) :
    (s.modifyValue f loc).WellFormed := by
  cases s with
  | empty => cases loc <;> trivial
  | pair first => cases loc <;> trivial
  | chained c => cases loc with
    | primary i => exact h
    | chained i j =>
      refine ⟨Chain.compact_modifyValue h.1 j f, ?_⟩
      rw [Chain.buckets_modifyValue h.1, List.length_modify]
      exact h.2

theorem bucketAt?_modifyValue {s : Slot K V} (h : s.WellFormed) {loc : Location} {b : Bucket K V}
    (hb : s.bucketAt? loc = some b) (f : V → V) : (s.modifyValue f loc).bucketAt? loc = some (b.mapValue f) := by
  obtain ⟨i, rfl, rfl⟩ | ⟨i, j, c, rfl, rfl, hj⟩ := shape_of_bucketAt? hb
  · rfl
  · change (c.modifyValue j f).get? j = _
    rw [Chain.get?_eq h.1] at hj
    rw [Chain.get?_eq (Chain.compact_modifyValue h.1 j f), Chain.buckets_modifyValue h.1, List.getElem?_modify_eq, hj]
    rfl

theorem modifyValue_eq_self {s : Slot K V} (h : s.WellFormed) {loc : Location} (hb : s.bucketAt? loc = none)
    (f : V → V) : s.modifyValue f loc = s := by
  cases s with
  | empty => cases loc <;> rfl
  | pair first => cases loc with
    | primary i => simp [bucketAt?] at hb
    | chained i j => rfl
  | chained c => cases loc with
    | primary i => rfl
    | chained i j =>
      change c.get? j = none at hb
      rw [Chain.get?_eq h.1, List.getElem?_eq_none_iff] at hb
      exact congrArg chained (Chain.modifyValue_eq_self h.1 hb f)

/-! ### Removing -/

theorem buckets_ofChain {c : Chain K V} (h : c.Compact) : (ofChain c).buckets = c.buckets := by
  rw [ofChain, Chain.single?_eq h, Chain.length_eq]
  rcases hbs : c.buckets with - | ⟨b, - | ⟨b', bs⟩⟩
  · rfl
  · rfl
  · exact hbs

theorem wellFormed_ofChain {c : Chain K V} (h : c.Compact) : (ofChain c).WellFormed := by
  rw [ofChain, Chain.single?_eq h, Chain.length_eq]
  rcases hbs : c.buckets with - | ⟨b, - | ⟨b', bs⟩⟩
  · trivial
  · trivial
  · exact ⟨h, by simp [hbs]⟩

theorem buckets_remove {s : Slot K V} (h : s.WellFormed) {loc : Location} {b : Bucket K V}
    (hb : s.bucketAt? loc = some b) : (s.remove loc).buckets = swapRemove s.buckets loc.cell := by
  obtain ⟨hlt, -⟩ := List.getElem?_eq_some_iff.mp (getElem?_of_bucketAt? h hb)
  obtain ⟨i, rfl, rfl⟩ | ⟨i, j, c, rfl, rfl, -⟩ := shape_of_bucketAt? hb
  · rfl
  · exact (buckets_ofChain (Chain.compact_swapRemove h.1 hlt)).trans (Chain.buckets_swapRemove h.1 hlt)

theorem wellFormed_remove {s : Slot K V} (h : s.WellFormed) {loc : Location} {b : Bucket K V}
    (hb : s.bucketAt? loc = some b) : (s.remove loc).WellFormed := by
  obtain ⟨hlt, -⟩ := List.getElem?_eq_some_iff.mp (getElem?_of_bucketAt? h hb)
  obtain ⟨i, rfl, rfl⟩ | ⟨i, j, c, rfl, rfl, -⟩ := shape_of_bucketAt? hb
  · trivial
  · exact wellFormed_ofChain (Chain.compact_swapRemove h.1 hlt)

end Slot

end FlatTable

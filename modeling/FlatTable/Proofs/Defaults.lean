import FlatTable.Proofs.Doubling
import Mathlib.Logic.Function.Iterate

/-!
# Values with a default

A default that is given is stored as `Table.insert` stores it, although the table grows before the pair is placed and not after. A default that aborts leaves the table as it was made ready for the pair; if it has room for the pair then, making it ready again changes nothing, and a later call goes on as the first one would have.
-/

namespace FlatTable

universe u v

variable {K : Type u} {V : Type v}

/-! ### Making room -/

namespace Table

variable {t : Table K V}

theorem madeReady_of_room (hroom : t.size + 1 ≤ t.maxSize) : t.madeReady = t := by
  rw [madeReady, if_neg (Nat.not_lt.mpr hroom)]

theorem size_madeReady (t : Table K V) : t.madeReady.size = t.size := by
  rw [madeReady]
  split
  · exact size_grow t
  · rfl

theorem capacity_madeReady (hsmall : t.capacity < maxCapacity) :
    t.madeReady.capacity = if t.maxSize < t.size + 1 then 2 * t.capacity else t.capacity := by
  rw [madeReady]
  split
  · exact capacity_grow hsmall
  · rfl

end Table

variable [BEq K]

/-! ### Where a new pair is found -/

theorem Chain.position?_push {c : Chain K V} (h : c.Compact) {hash : UInt32} {k : K} {b : Bucket K V}
    (hnone : c.position? hash k = none) (hb : b.isFor hash k = true) : (c.push b).position? hash k = some c.length := by
  rw [position?] at hnone
  rw [position?, buckets_push h, List.findIdx?_append, hnone, length_eq]
  simp [hb]

theorem Slot.locate?_add {s : Slot K V} (h : s.WellFormed) {i : Nat} {hash : UInt32} {k : K} {b : Bucket K V}
    (hnone : s.locate? i hash k = none) (hb : b.isFor hash k = true) :
    (s.add b).locate? i hash k = some (s.vacancy i) := by
  cases s with
  | empty =>
    show (if b.isFor hash k then some (Location.primary i) else none) = _
    rw [if_pos hb]
    rfl
  | pair first =>
    have hfirst : first.isFor hash k = false := locate?_eq_none.mp hnone first List.mem_cons_self
    have hposition : (Chain.ofBucket first).position? hash k = none := by
      show List.findIdx? _ [first] = none
      simp [hfirst]
    show (((Chain.ofBucket first).push b).position? hash k).map (Location.chained i) = _
    rw [Chain.position?_push (Chain.compact_ofBucket first) hposition hb, Chain.length_eq]
    rfl
  | chained c =>
    have hposition : c.position? hash k = none := Option.map_eq_none_iff.mp hnone
    show ((c.push b).position? hash k).map (Location.chained i) = _
    rw [Chain.position?_push h.1 hposition hb]
    rfl

namespace Table

variable {t : Table K V} {k : K}

/-- A new pair is found where it was placed. -/
theorem locate?_addNew [ReflBEq K] (h : t.LayoutInvariant) (hnone : t.locate? k = none) (v : V) :
    (t.addNew (t.spreadHash k) k v).1.locate? k = some (t.addNew (t.spreadHash k) k v).2 := by
  have hi : slotIndex (t.spreadHash k) t.slots.size < t.slots.size := slotIndex_lt h.capacity_pos
  obtain ⟨s, hs⟩ : ∃ s, t.slots[slotIndex (t.spreadHash k) t.slots.size]? = some s :=
    ⟨_, Array.getElem?_eq_getElem hi⟩
  have hin : s.locate? (slotIndex (t.spreadHash k) t.slots.size) (t.spreadHash k) k = none := by
    rw [locate?, hs] at hnone
    exact hnone
  have hfor : (Bucket.mk (t.spreadHash k) k v).isFor (t.spreadHash k) k = true := by simp [Bucket.isFor]
  have hsize : (t.addNew (t.spreadHash k) k v).1.slots.size = t.slots.size := size_place t.slots _
  have hhash : (t.addNew (t.spreadHash k) k v).1.spreadHash k = t.spreadHash k := rfl
  have hadded : (t.addNew (t.spreadHash k) k v).1.slots[slotIndex (t.spreadHash k) t.slots.size]? =
      some (s.add ⟨t.spreadHash k, k, v⟩) := by
    show (t.slots.modify _ (Slot.add ⟨t.spreadHash k, k, v⟩))[_]? = _
    rw [Array.getElem?_modify, if_pos rfl, hs, Option.map_some]
  have hplace : (t.addNew (t.spreadHash k) k v).2 = s.vacancy (slotIndex (t.spreadHash k) t.slots.size) := by
    show (t.slots.getD _ .empty).vacancy _ = _
    rw [Array.getD_eq_getD_getElem?, hs, Option.getD_some]
  rw [locate?, hhash, hsize, hadded, hplace]
  exact Slot.locate?_add (wellFormed_of_getElem? h hs) hin hfor

/-! ### Asking for a default -/

theorem locate?_of_contains (hk : t.contains k = true) : ∃ loc, t.locate? k = some loc :=
  Option.isSome_iff_exists.mp hk

theorem locate?_of_not_contains (hk : t.contains k = false) : t.locate? k = none := by
  simpa [contains] using hk

/-- The table after the value of a key was asked for with a default that aborts. -/
def attempt (k : K) (t : Table K V) : Table K V := (t.getOrInsert k none).2

theorem getOrInsert_none (hnone : t.locate? k = none) : t.getOrInsert k none = (.aborted, t.madeReady) :=
  getOrInsert_of_locate?_eq_none hnone none

/-- Once a table has room for a further pair, attempts that abort change nothing. -/
theorem iterate_attempt (hnone : t.locate? k = none) (hroom : t.size + 1 ≤ t.maxSize) (n : Nat) :
    (attempt k)^[n] t = t := by
  apply Function.iterate_fixed
  rw [attempt, getOrInsert_none hnone, madeReady_of_room hroom]

/-! ### Storing a default -/

theorem settled_addNew (h : t.LayoutInvariant) (hash : UInt32) (k : K) (v : V) :
    (t.addNew hash k v).1.settled = (t.madeReady.addNew hash k v).1 := by
  rw [settled, madeReady]
  by_cases hfull : t.maxSize < t.size + 1
  · rw [if_pos hfull, ← grow_addNew h]
    exact if_pos hfull
  · rw [if_neg hfull]
    exact if_neg hfull

variable [EquivBEq K]

theorem spreadHash_madeReady (t : Table K V) (k : K) : t.madeReady.spreadHash k = t.spreadHash k := by
  rw [spreadHash, (keeps_madeReady t).hash, spreadHash]

theorem getOrInsert_eq_insert (h : t.LayoutInvariant) (hnone : t.locate? k = none) (v : V) :
    ∃ loc, t.getOrInsert k (some v) = (.inserted loc, (t.insert k v).2) ∧ (t.insert k v).2.locate? k = some loc ∧
      (t.insert k v).2.bucketAt? loc = some ⟨t.spreadHash k, k, v⟩ := by
  have hready := (keeps_madeReady t).layout h
  have hinsert : (t.insert k v).2 = (t.madeReady.addNew (t.madeReady.spreadHash k) k v).1 := by
    rw [insert_of_locate?_eq_none hnone, settled_addNew h, spreadHash_madeReady]
  rw [hinsert, ← spreadHash_madeReady t]
  exact ⟨_, getOrInsert_of_locate?_eq_none hnone (some v), locate?_addNew hready (locate?_madeReady h hnone) v,
    bucketAt?_place hready.wellFormed hready.capacity_pos _⟩

/-- For an absent key, asking for a value with a default leaves the very table that inserting leaves, and refers to the new pair there. For a key that is present it refers to the pair of the key, changes nothing, and does not ask for the default, so it does not matter if that would abort. -/
theorem getOrInsert_agrees_with_insert (h : t.LayoutInvariant) (k : K) (v : V) :
    (t.contains k = false → ∃ loc, t.getOrInsert k (some v) = (.inserted loc, (t.insert k v).2) ∧
      (t.insert k v).2.locate? k = some loc ∧
      (t.insert k v).2.bucketAt? loc = some ⟨t.spreadHash k, k, v⟩) ∧
    (t.contains k = true → ∃ loc b, (∀ default, t.getOrInsert k default = (.found loc, t)) ∧
      t.locate? k = some loc ∧ t.bucketAt? loc = some b ∧ t.get? k = some b.value) := by
  constructor
  · intro hk
    exact getOrInsert_eq_insert h (locate?_of_not_contains hk) v
  · intro hk
    obtain ⟨loc, hloc⟩ := locate?_of_contains hk
    obtain ⟨b, hb, -⟩ := bucketAt?_of_locate?_eq_some h hloc
    refine ⟨loc, b, fun default => ?_, hloc, hb, ?_⟩
    · rw [getOrInsert, hloc]
    · rw [get?, getEntry?, hloc, Option.bind_some, hb]
      rfl

/-- Two keys that collide in a table of two slots, which the second is one too many for. -/
theorem getOrInsert_agrees_with_insert_at_threshold : ∃ t : Table Nat Nat,
    t = (build (fun _ => 7) ⟨2, .standard⟩ 0).extend [(1, 10)] ∧ t.LayoutInvariant ∧
      (∃ loc, t.getOrInsert 2 (some 20) = (.inserted loc, (t.insert 2 20).2) ∧
        (t.insert 2 20).2.locate? 2 = some loc ∧ (t.insert 2 20).2.capacity = 2 * t.capacity) ∧
      ∃ loc b, t.getOrInsert 1 none = (.found loc, t) ∧ t.bucketAt? loc = some b ∧ t.get? 1 = some b.value := by
  have hlayout := layoutInvariant_extend_build (V := Nat) (fun _ : Nat => 7) ⟨2, .standard⟩ 0 [(1, 10)]
  obtain ⟨loc, hinserted, hloc, -⟩ := (getOrInsert_agrees_with_insert hlayout 2 20).1 (by decide +kernel)
  obtain ⟨loc', b, hfound, -, hb, hget⟩ := (getOrInsert_agrees_with_insert hlayout 1 20).2 (by decide +kernel)
  exact ⟨_, rfl, hlayout, ⟨loc, hinserted, hloc, by decide +kernel⟩, loc', b, hfound none, hb, hget⟩

/-! ### A default that aborts -/

theorem getOrInsert_madeReady (h : t.LayoutInvariant) (hnone : t.locate? k = none)
    (hroom : t.madeReady.size + 1 ≤ t.madeReady.maxSize) (v : V) :
    t.madeReady.getOrInsert k (some v) = t.getOrInsert k (some v) := by
  rw [getOrInsert_of_locate?_eq_none (locate?_madeReady h hnone), getOrInsert_of_locate?_eq_none hnone,
    madeReady_of_room hroom]

/-- A default that aborts leaves the count, the lookups and the layout; the capacity is doubled if the pair would have been one too many, and otherwise nothing is touched. If there is room for the pair then, further attempts that abort change nothing, and the first default that is given leads where it would have led without them. -/
theorem aborted_default_is_retryable (h : t.LayoutInvariant) (hsmall : t.capacity < maxCapacity)
    (hk : t.contains k = false) :
    ∃ u, t.getOrInsert k none = (.aborted, u) ∧
      u.size = t.size ∧ (∀ q, u.getEntry? q = t.getEntry? q ∧ u.contains q = t.contains q) ∧ u.LayoutInvariant ∧
      u.capacity = (if t.maxSize < t.size + 1 then 2 * t.capacity else t.capacity) ∧
      (t.size + 1 ≤ t.maxSize → u = t) ∧
      (u.size + 1 ≤ u.maxSize → ∀ n, (attempt k)^[n] u = u ∧ u.getOrInsert k none = (.aborted, u) ∧
        ∀ v, ((attempt k)^[n] u).getOrInsert k (some v) = t.getOrInsert k (some v)) := by
  have hnone := locate?_of_not_contains hk
  have hmodels := models_toList h
  have hready := (keeps_madeReady t).layout h
  refine ⟨t.madeReady, getOrInsert_none hnone, size_madeReady t,
    lookups_eq_of_models hmodels (models_madeReady hmodels) (keeps_madeReady t).hash, hready,
    capacity_madeReady hsmall, madeReady_of_room, ?_⟩
  intro hroom n
  have hnone' := locate?_madeReady h hnone
  have hsame := iterate_attempt hnone' hroom n
  refine ⟨hsame, ?_, fun v => ?_⟩
  · rw [getOrInsert_none hnone', madeReady_of_room hroom]
  · rw [hsame, getOrInsert_madeReady h hnone hroom]

/-- The default of a colliding key aborts four times in a table that has to double for it. -/
theorem aborted_default_is_retryable_at_threshold : ∃ t u : Table Nat Nat,
    t = (build (fun _ => 7) ⟨2, .standard⟩ 0).extend [(1, 10)] ∧ t.LayoutInvariant ∧ t.capacity < maxCapacity ∧
      t.contains 2 = false ∧ t.getOrInsert 2 none = (.aborted, u) ∧ u.capacity = 4 ∧ u.get? 1 = some 10 ∧
      u.size + 1 ≤ u.maxSize ∧ ((attempt 2)^[3] u).getOrInsert 2 (some 20) = t.getOrInsert 2 (some 20) := by
  have hlayout := layoutInvariant_extend_build (V := Nat) (fun _ : Nat => 7) ⟨2, .standard⟩ 0 [(1, 10)]
  have hsmall : ((build (fun _ => 7) ⟨2, .standard⟩ 0).extend [(1, 10)] : Table Nat Nat).capacity < maxCapacity := by
    decide +kernel
  have habsent : ((build (fun _ => 7) ⟨2, .standard⟩ 0).extend [(1, 10)] : Table Nat Nat).contains 2 = false := by
    decide +kernel
  obtain ⟨u, haborted, -, hlookups, -, hcapacity, -, hretry⟩ := aborted_default_is_retryable hlayout hsmall habsent
  have hu : u = (getOrInsert _ 2 none).2 := (congrArg Prod.snd haborted).symm
  have hroom : u.size + 1 ≤ u.maxSize := by
    rw [hu]
    decide +kernel
  refine ⟨_, u, rfl, hlayout, hsmall, habsent, haborted, ?_, ?_, hroom, ((hretry hroom 3).2).2 20⟩
  · rw [hcapacity]
    decide +kernel
  · rw [get?, (hlookups 1).1]
    decide +kernel

end Table

end FlatTable

import FlatTable.Proofs.Growth
import FlatTable.Table.Journal

/-!
# Growth steps

The journal of storing pairs tells of every growth step. As long as a table is smaller than the largest one, each step doubles its capacity and nothing else changes it, so the number of steps can be told from the capacity before and after.
-/

namespace FlatTable

universe u v

def Event.isGrowth : Event → Bool
  | .grew _ _ | .saturated _ => true
  | .demoted _ | .readForm _ _ => false

/-- The number of growth steps that a journal tells of. -/
def growthSteps (journal : List Event) : Nat := journal.countP Event.isGrowth

@[simp] theorem growthSteps_nil : growthSteps [] = 0 := rfl

@[simp] theorem growthSteps_append (before after : List Event) :
    growthSteps (before ++ after) = growthSteps before + growthSteps after := List.countP_append

@[simp] theorem growthSteps_cons (event : Event) (journal : List Event) :
    growthSteps (event :: journal) = growthSteps journal + if event.isGrowth then 1 else 0 := List.countP_cons

theorem Extent.capacity_le_stored (lf : LoadFactor) (e : Extent) : e.capacity ≤ (e.stored lf).capacity := by
  rw [stored, doubled]
  repeat' split
  all_goals dsimp only; omega

/-- Below the largest capacity, a new pair doubles the capacity if the threshold was reached. -/
theorem Extent.capacity_stored {lf : LoadFactor} {e : Extent} (hsmall : (e.stored lf).capacity < maxCapacity) :
    (e.stored lf).capacity = e.capacity * 2 ^ if e.maxSize < e.size + 1 then 1 else 0 := by
  have hle := capacity_le_stored lf e
  rw [stored]
  split
  · rw [doubled, if_neg (by omega)]
    exact Nat.mul_comm 2 e.capacity
  · exact (Nat.mul_one _).symm

section Placing

variable {K : Type u} {V : Type v}

@[simp] theorem growthSteps_placeEvents (slots : Array (Slot K V)) (b : Bucket K V) :
    growthSteps (placeEvents slots b) = 0 := by
  rw [placeEvents]
  split <;> rfl

@[simp] theorem growthSteps_placeAllEvents (slots : Array (Slot K V)) (bs : List (Bucket K V)) :
    growthSteps (placeAllEvents slots bs) = 0 := by
  induction bs generalizing slots with
  | nil => rfl
  | cons b bs ih => simp [placeAllEvents, ih]

end Placing

namespace Table

variable {K : Type u} {V : Type v}

@[simp] theorem growthSteps_growEvents (t : Table K V) : growthSteps t.growEvents = 1 := by
  rw [growEvents]
  split
  · rfl
  · simp [Event.isGrowth]

variable [BEq K] {t : Table K V} {k : K}

theorem growthSteps_insertEvents (hnone : t.locate? k = none) (v : V) :
    growthSteps (t.insertEvents k v) = if t.maxSize < t.size + 1 then 1 else 0 := by
  rw [insertEvents, hnone]
  dsimp only
  split <;> simp

theorem capacity_le_insert (t : Table K V) (k : K) (v : V) : t.capacity ≤ (t.insert k v).2.capacity := by
  cases hloc : t.locate? k with
  | none =>
    have hextent := congrArg Extent.capacity (extent_insert hloc v)
    exact (Extent.capacity_le_stored t.loadFactor t.extent).trans hextent.ge
  | some loc =>
    rw [insert_of_locate?_eq_some hloc]
    exact (shrinks_modifyValueAt t loc _).1.ge

theorem capacity_insert {v : V} (hsmall : (t.insert k v).2.capacity < maxCapacity) :
    (t.insert k v).2.capacity = t.capacity * 2 ^ growthSteps (t.insertEvents k v) := by
  cases hloc : t.locate? k with
  | none =>
    have hextent : (t.insert k v).2.capacity = (t.extent.stored t.loadFactor).capacity :=
      congrArg Extent.capacity (extent_insert hloc v)
    rw [hextent] at hsmall ⊢
    rw [growthSteps_insertEvents hloc]
    exact Extent.capacity_stored hsmall
  | some loc =>
    have hevents : t.insertEvents k v = [] := by rw [insertEvents, hloc]
    rw [hevents, insert_of_locate?_eq_some hloc]
    exact (shrinks_modifyValueAt t loc _).1.trans (Nat.mul_one _).symm

theorem capacity_le_extend (t : Table K V) (pairs : List (K × V)) : t.capacity ≤ (t.extend pairs).capacity := by
  induction pairs generalizing t with
  | nil => exact Nat.le_refl _
  | cons p pairs ih => exact (capacity_le_insert t p.1 p.2).trans (ih (t.insert p.1 p.2).2)

/-- Below the largest capacity, every growth step of a run of insertions is a doubling. -/
theorem capacity_extend {pairs : List (K × V)} (hsmall : (t.extend pairs).capacity < maxCapacity) :
    (t.extend pairs).capacity = t.capacity * 2 ^ growthSteps (t.extendEvents pairs) := by
  induction pairs generalizing t with
  | nil => exact (Nat.mul_one _).symm
  | cons p pairs ih =>
    have hfirst : (t.insert p.1 p.2).2.capacity < maxCapacity :=
      Nat.lt_of_le_of_lt (capacity_le_extend (t.insert p.1 p.2).2 pairs) hsmall
    have hrest : (t.extend (p :: pairs)).capacity = _ := ih hsmall
    rw [hrest, capacity_insert hfirst, extendEvents, growthSteps_append, Nat.pow_add, Nat.mul_assoc]

end Table

end FlatTable

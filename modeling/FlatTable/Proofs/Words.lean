import FlatTable.Numeric.Power
import Mathlib.Tactic.NormNum

/-!
# Counting in words

Counts and indices are natural numbers in this library. A machine counts in 64-bit words, and a step whose outcome is no word has none here. Where there is an outcome it is that of the step on numbers.
-/

namespace FlatTable

namespace Word

/-- The word for a number, if there is one. -/
def ofNat? (n : Nat) : Option UInt64 := if n < wordLimit then some n.toUInt64 else none

def add? (a b : UInt64) : Option UInt64 := ofNat? (a.toNat + b.toNat)

def mul? (a b : UInt64) : Option UInt64 := ofNat? (a.toNat * b.toNat)

/-- The product, or the greatest word in its place. -/
def mulSaturating (a b : UInt64) : UInt64 := (mul? a b).getD (-1)

theorem toNat_lt (w : UInt64) : w.toNat < wordLimit := w.toNat_lt

theorem ofNat?_eq_some_iff {n : Nat} {w : UInt64} : ofNat? n = some w ↔ n = w.toNat := by
  rw [ofNat?]
  constructor
  · intro h
    split at h
    · rename_i hlt
      rw [← Option.some.inj h]
      exact (UInt64.toNat_ofNat_of_lt' hlt).symm
    · cases h
  · rintro rfl
    rw [if_pos (toNat_lt w)]
    simp

theorem ofNat?_eq_none_iff {n : Nat} : ofNat? n = none ↔ wordLimit ≤ n := by
  simp [ofNat?]

theorem exists_ofNat? {n : Nat} (h : n < wordLimit) : ∃ w, ofNat? n = some w ∧ w.toNat = n :=
  ⟨n.toUInt64, if_pos h, UInt64.toNat_ofNat_of_lt' h⟩

theorem mul?_eq_some_iff {a b w : UInt64} : mul? a b = some w ↔ a.toNat * b.toNat = w.toNat := ofNat?_eq_some_iff

theorem toNat_mulSaturating (a b : UInt64) : (mulSaturating a b).toNat = min (a.toNat * b.toNat) (wordLimit - 1) := by
  rw [mulSaturating]
  cases h : mul? a b with
  | none =>
    have hlarge : wordLimit ≤ a.toNat * b.toNat := ofNat?_eq_none_iff.mp h
    rw [Nat.min_eq_right (Nat.sub_le_of_le_add (Nat.le_succ_of_le hlarge))]
    rfl
  | some w =>
    have hword := toNat_lt w
    rw [mul?_eq_some_iff.mp h, Option.getD_some]
    omega

theorem toNat_and_one (w : UInt64) : (w &&& 1).toNat = w.toNat % 2 := by
  rw [UInt64.toNat_and]
  exact Nat.and_one_is_mod w.toNat

end Word

end FlatTable

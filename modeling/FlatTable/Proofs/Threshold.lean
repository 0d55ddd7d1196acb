import FlatTable.LoadFactor
import Mathlib.Algebra.Order.Floor.Semifield
import Mathlib.Data.Rat.Floor
import Mathlib.Tactic.Ring

/-!
# The value of a load factor

`LoadFactor.value` reads a bit pattern as the rational number that the 32-bit format gives it: a sign, an exponent and a fraction. The threshold, which is computed from whole steps, is the capacity times this number, rounded down, and always leaves a slot free. It grows with the capacity, and where it is not zero or the load factor is at least one half, every doubling raises it.
-/

namespace FlatTable

namespace LoadFactor

def exponent (lf : LoadFactor) : Nat := lf.bits.toNat / 2 ^ 23 % 2 ^ 8

def fraction (lf : LoadFactor) : Nat := lf.bits.toNat % 2 ^ 23

/-- The exact value of a finite load factor. -/
def value (lf : LoadFactor) : ℚ :=
  let sign : ℚ := if lf.bits.toNat / 2 ^ 31 = 1 then -1 else 1
  if lf.exponent = 0 then sign * (lf.fraction * 2 ^ (-149 : ℤ))
  else sign * ((2 ^ 23 + lf.fraction) * 2 ^ ((lf.exponent : ℤ) - 150))

theorem magnitude_div (lf : LoadFactor) : lf.magnitude / 2 ^ 23 = lf.exponent :=
  Nat.mod_mul_right_div_self lf.bits.toNat (2 ^ 23) (2 ^ 8)

theorem magnitude_mod (lf : LoadFactor) : lf.magnitude % 2 ^ 23 = lf.fraction :=
  Nat.mod_mod_of_dvd lf.bits.toNat ⟨2 ^ 8, rfl⟩

theorem steps_eq (lf : LoadFactor) : lf.steps =
    if lf.exponent = 0 then lf.fraction else (2 ^ 23 + lf.fraction) * 2 ^ (lf.exponent - 1) := by
  rw [← magnitude_div, ← magnitude_mod]
  rfl

theorem sign_of_isValid {lf : LoadFactor} (h : lf.isValid = true) : ¬lf.bits.toNat / 2 ^ 31 = 1 := by
  have hsign : FloatFormat.single.isNegative lf.bits.toNat = false := by
    rw [isValid, Bool.and_eq_true, Bool.and_eq_true, Bool.not_eq_true'] at h
    exact h.1.1
  have hbit : lf.bits.toNat / 2 ^ 31 % 2 ≠ 1 := of_decide_eq_false hsign
  omega

/-- A load factor without a sign is a whole number of steps of two to the minus 149. -/
theorem value_eq_of_sign {lf : LoadFactor} (hsign : ¬lf.bits.toNat / 2 ^ 31 = 1) : lf.value = lf.steps / 2 ^ 149 := by
  rw [value, steps_eq]
  simp only [hsign, if_false, one_mul]
  split
  · rw [zpow_neg, div_eq_mul_inv]
    norm_cast
  · rename_i hexponent
    obtain ⟨e, he⟩ := Nat.exists_eq_succ_of_ne_zero hexponent
    have hshift : ((e + 1 : Nat) : ℤ) - 150 = (e : ℤ) - 149 := by omega
    rw [he, Nat.succ_eq_add_one, hshift, zpow_sub₀ (by norm_num), Nat.add_sub_cancel]
    push_cast
    rw [zpow_natCast]
    ring

theorem value_eq_steps_div {lf : LoadFactor} (h : lf.isValid = true) : lf.value = lf.steps / 2 ^ 149 :=
  value_eq_of_sign (sign_of_isValid h)

/-! ### Valid load factors -/

/-- The exponent is not the one kept for infinities and for what is not a number. -/
def IsFinite (lf : LoadFactor) : Prop := lf.exponent < 2 ^ 8 - 1

theorem isFinite_iff (lf : LoadFactor) : lf.IsFinite ↔ lf.magnitude < FloatFormat.single.infinity := by
  have hinfinity : FloatFormat.single.infinity = (2 ^ 8 - 1) * 2 ^ 23 := rfl
  rw [hinfinity, IsFinite, ← magnitude_div, Nat.div_lt_iff_lt_mul (by decide)]

theorem value_nonpos {lf : LoadFactor} (hsign : lf.bits.toNat / 2 ^ 31 = 1) : lf.value ≤ 0 := by
  rw [value]
  simp only [hsign, if_true, neg_one_mul]
  split
  · have hnonneg : (0 : ℚ) ≤ lf.fraction * 2 ^ (-149 : ℤ) := by positivity
    exact neg_nonpos.mpr hnonneg
  · have hnonneg : (0 : ℚ) ≤ (2 ^ 23 + lf.fraction) * 2 ^ ((lf.exponent : ℤ) - 150) :=
      mul_nonneg (by positivity) (zpow_nonneg zero_le_two _)
    exact neg_nonpos.mpr hnonneg

theorem steps_least : least.steps = 2 ^ 144 := by decide +kernel

theorem steps_least_le_iff {lf : LoadFactor} (hsign : ¬lf.bits.toNat / 2 ^ 31 = 1) :
    least.steps ≤ lf.steps ↔ 1 / 32 ≤ lf.value := by
  have hpow : (1 / 32 : ℚ) * 2 ^ 149 = ((2 ^ 144 : Nat) : ℚ) := by norm_num
  rw [steps_least, value_eq_of_sign hsign, le_div_iff₀ (by positivity), hpow, Nat.cast_le]

/-- The load factors that tables may have are the finite ones from one thirty-second on. -/
theorem isValid_iff (lf : LoadFactor) : lf.isValid = true ↔ lf.IsFinite ∧ 1 / 32 ≤ lf.value := by
  have hbits : lf.bits.toNat < 2 ^ 32 := lf.bits.toNat_lt
  have hnegative : FloatFormat.single.isNegative lf.bits.toNat = decide (lf.bits.toNat / 2 ^ 31 % 2 = 1) := rfl
  rw [isValid, Bool.and_eq_true, Bool.and_eq_true, Bool.not_eq_true', hnegative, decide_eq_false_iff_not,
    decide_eq_true_iff, decide_eq_true_iff, isFinite_iff]
  by_cases hsign : lf.bits.toNat / 2 ^ 31 = 1
  · have hsmall : ¬1 / 32 ≤ lf.value := not_le.mpr (lt_of_le_of_lt (value_nonpos hsign) (by norm_num))
    rw [hsign]
    exact ⟨fun h => absurd rfl h.1.1, fun h => absurd h.2 hsmall⟩
  · have hpositive : ¬lf.bits.toNat / 2 ^ 31 % 2 = 1 := by omega
    rw [steps_least_le_iff hsign, and_iff_right hpositive]

/-! ### The threshold of a capacity -/

theorem maxSize_eq_min (lf : LoadFactor) (capacity : Nat) :
    lf.maxSize capacity = min (capacity * lf.steps / 2 ^ 149) (capacity - 1) := rfl

/-- The threshold is the capacity times the load factor, rounded down, but less than the capacity. -/
theorem maxSize_eq_floor {lf : LoadFactor} (h : lf.isValid = true) (capacity : Nat) :
    lf.maxSize capacity = min (capacity - 1) ⌊(capacity : ℚ) * lf.value⌋₊ := by
  have hfloor : ⌊(capacity : ℚ) * lf.value⌋₊ = capacity * lf.steps / 2 ^ 149 := by
    rw [value_eq_steps_div h, ← mul_div_assoc, ← Nat.floor_div_eq_div (K := ℚ)]
    norm_cast
  rw [maxSize_eq_min, hfloor, min_comm]

/-! ### The threshold of a larger capacity -/

theorem maxSize_mono (lf : LoadFactor) : Monotone lf.maxSize := by
  intro c d hcd
  have hproduct : c * lf.steps / 2 ^ 149 ≤ d * lf.steps / 2 ^ 149 :=
    Nat.div_le_div_right (Nat.mul_le_mul_right lf.steps hcd)
  rw [maxSize_eq_min, maxSize_eq_min]
  omega

theorem maxSize_lt (lf : LoadFactor) {c : Nat} (hpos : 0 < c) : lf.maxSize c < c := by
  rw [maxSize_eq_min]
  omega

theorem two_pow_le_steps {lf : LoadFactor} (h : lf.isValid = true) : 2 ^ 144 ≤ lf.steps := by
  rw [isValid, Bool.and_eq_true, decide_eq_true_eq, steps_least] at h
  exact h.2

/-- No valid load factor makes a slot array grow with fewer pairs than one for every thirty-two slots. -/
theorem le_maxSize {lf : LoadFactor} (h : lf.isValid = true) (c : Nat) : c ≤ 32 * (lf.maxSize c + 1) := by
  have hleast : c * 2 ^ 144 / 2 ^ 149 ≤ c * lf.steps / 2 ^ 149 :=
    Nat.div_le_div_right (Nat.mul_le_mul_left c (two_pow_le_steps h))
  have hquotient : c * 2 ^ 144 / 2 ^ 149 = c / 32 := Nat.mul_div_mul_right c 32 (Nat.two_pow_pos 144)
  rw [maxSize_eq_min]
  omega

/-- A load factor and a capacity from which on every doubling makes room for at least one more pair. -/
def Roomy (lf : LoadFactor) (capacity : Nat) : Prop := 1 ≤ lf.maxSize capacity ∨ 2 ^ 149 ≤ 2 * lf.steps

theorem two_pow_le_two_mul_steps {lf : LoadFactor} (h : lf.isValid = true) (hhalf : 1 / 2 ≤ lf.value) :
    2 ^ 149 ≤ 2 * lf.steps := by
  rw [value_eq_steps_div h, div_le_div_iff₀ (by norm_num) (by norm_num), one_mul] at hhalf
  rw [Nat.mul_comm]
  exact_mod_cast hhalf

theorem roomy_of_half_le {lf : LoadFactor} (h : lf.isValid = true) (hhalf : 1 / 2 ≤ lf.value) (c : Nat) :
    lf.Roomy c := Or.inr (two_pow_le_two_mul_steps h hhalf)

/-- At a load factor of one half or more, two slots for each pair are always enough. -/
theorem le_maxSize_of_two_mul_le {lf : LoadFactor} (h : lf.isValid = true) (hhalf : 1 / 2 ≤ lf.value) {count c : Nat}
    (hpos : 0 < c) (hcount : 2 * count ≤ c) : count ≤ lf.maxSize c := by
  have hsteps := two_pow_le_two_mul_steps h hhalf
  have hfloor : count ≤ c * lf.steps / 2 ^ 149 := by
    rw [Nat.le_div_iff_mul_le (Nat.two_pow_pos 149)]
    have hproduct : 2 * count * 2 ^ 149 ≤ c * (2 * lf.steps) := Nat.mul_le_mul hcount hsteps
    rw [Nat.mul_assoc, Nat.mul_left_comm c] at hproduct
    exact Nat.le_of_mul_le_mul_left hproduct Nat.two_pos
  rw [maxSize_eq_min]
  omega

theorem half_le_standard : 1 / 2 ≤ standard.value := by
  have hsteps : standard.steps = 3 * 2 ^ 147 := by decide +kernel
  rw [value_eq_steps_div (by decide), hsteps]
  norm_num

theorem Roomy.mono {lf : LoadFactor} {c d : Nat} (h : lf.Roomy c) (hcd : c ≤ d) : lf.Roomy d :=
  h.imp_left fun hmax => hmax.trans (lf.maxSize_mono hcd)

theorem Roomy.maxSize_double {lf : LoadFactor} {c : Nat} (h : lf.Roomy c) (hpos : 0 < c) :
    lf.maxSize c + 1 ≤ lf.maxSize (2 * c) := by
  have hdouble : 2 * (c * lf.steps / 2 ^ 149) ≤ 2 * c * lf.steps / 2 ^ 149 := by
    rw [Nat.mul_assoc]
    exact Nat.mul_div_le_mul_div_assoc 2 _ _
  rcases h with hmax | hhalf
  · rw [maxSize_eq_min] at hmax
    rw [maxSize_eq_min, maxSize_eq_min]
    omega
  · have hfull : c ≤ 2 * c * lf.steps / 2 ^ 149 := by
      rw [Nat.le_div_iff_mul_le (Nat.two_pow_pos 149), Nat.mul_comm 2, Nat.mul_assoc]
      exact Nat.mul_le_mul_left c hhalf
    rw [maxSize_eq_min, maxSize_eq_min]
    omega

/-- Doublings make room for as many more pairs as there are of them. -/
theorem Roomy.maxSize_doublings {lf : LoadFactor} {c : Nat} (h : lf.Roomy c) (hpos : 0 < c) (k : Nat) :
    lf.maxSize c + k ≤ lf.maxSize (c * 2 ^ k) := by
  induction k with
  | zero => rw [Nat.pow_zero, Nat.mul_one, Nat.add_zero]
  | succ k ih =>
    have hle : c ≤ c * 2 ^ k := Nat.le_mul_of_pos_right c (Nat.two_pow_pos k)
    have hnext := (h.mono hle).maxSize_double (Nat.lt_of_lt_of_le hpos hle)
    rw [Nat.pow_succ, ← Nat.mul_assoc, Nat.mul_comm _ 2]
    omega

end LoadFactor

end FlatTable

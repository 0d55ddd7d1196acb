import FlatTable.Numeric.Double
import FlatTable.Proofs.Rebuild
import FlatTable.Proofs.Words

/-!
# Making ready for a number of pairs

A number of slots that is enough for some pairs stays enough when it is doubled. So the first one that the search meets is the least of all, and none is met only if the greatest is not enough. The search is also followed round by round on words: it comes to an end after at most thirty doublings, none of which loses a bit, and the products it compares with the count have exact values as floating-point numbers.
-/

namespace FlatTable

/-! ### Products in floating point -/

namespace LoadFactor

theorem exponent_pos {lf : LoadFactor} (h : lf.isValid = true) : 0 < lf.exponent := by
  by_contra hzero
  have hsteps := two_pow_le_steps h
  have hfraction : lf.fraction < 2 ^ 23 := Nat.mod_lt _ (Nat.two_pow_pos 23)
  rw [steps_eq, if_pos (by omega)] at hsteps
  omega

/-- The product of a capacity and a load factor is a 64-bit floating-point number, so that multiplying them neither rounds nor overflows. -/
theorem exists_double_product {lf : LoadFactor} (h : lf.isValid = true) {n : Nat} (hn : n ≤ maxDoublings) :
    ∃ x : Double, x.isNegative = false ∧ x.magnitude < FloatFormat.double.infinity ∧
      (Double.steps x.magnitude : ℚ) / 2 ^ 1074 = 2 ^ n * lf.value := by
  have hlimit : maxDoublings = 30 := rfl
  have hfraction : lf.fraction < 2 ^ 23 := Nat.mod_lt _ (Nat.two_pow_pos 23)
  have hexponent : lf.exponent < 2 ^ 8 := Nat.mod_lt _ (Nat.two_pow_pos 8)
  obtain ⟨e, he⟩ := Nat.exists_eq_succ_of_ne_zero (Nat.ne_of_gt (exponent_pos h))
  -- The fraction keeps its bits, and the exponent is counted from the other format's bias.
  have hword : (e + 897 + n) * 2 ^ 52 + lf.fraction * 2 ^ 29 < 2 ^ 63 := by omega
  obtain ⟨x, hx⟩ : ∃ x : Double, x.bits.toNat = (e + 897 + n) * 2 ^ 52 + lf.fraction * 2 ^ 29 :=
    ⟨⟨((e + 897 + n) * 2 ^ 52 + lf.fraction * 2 ^ 29).toUInt64⟩, UInt64.toNat_ofNat_of_lt' (hword.trans (by decide))⟩
  have hsign : FloatFormat.double.signBit = 2 ^ 63 := rfl
  have hinfinity : FloatFormat.double.infinity = 2047 * 2 ^ 52 := rfl
  have hmagnitude : x.magnitude = (e + 897 + n) * 2 ^ 52 + lf.fraction * 2 ^ 29 := by
    rw [Double.magnitude, FloatFormat.magnitude, hsign, hx, Nat.mod_eq_of_lt hword]
  have hsteps : Double.steps x.magnitude = (2 ^ 52 + lf.fraction * 2 ^ 29) * 2 ^ (e + 896 + n) := by
    have hbits : twoPow FloatFormat.double.fractionBits = 2 ^ 52 := rfl
    rw [Double.steps, FloatFormat.steps, hbits, hmagnitude]
    have hdiv : ((e + 897 + n) * 2 ^ 52 + lf.fraction * 2 ^ 29) / 2 ^ 52 = e + 896 + n + 1 := by omega
    have hmod : ((e + 897 + n) * 2 ^ 52 + lf.fraction * 2 ^ 29) % 2 ^ 52 = lf.fraction * 2 ^ 29 := by omega
    rw [hdiv, hmod, if_neg (Nat.succ_ne_zero _), Nat.add_sub_cancel]
    rfl
  refine ⟨x, ?_, ?_, ?_⟩
  · rw [Double.isNegative, FloatFormat.isNegative, hsign, hx, decide_eq_false_iff_not]
    omega
  · rw [hmagnitude, hinfinity]
    omega
  · rw [hsteps, value_eq_steps_div h, steps_eq, if_neg (by omega), he, Nat.succ_eq_add_one, Nat.add_sub_cancel]
    push_cast
    -- Both sides have a common power of two, too large to be computed.
    have hbias : (2 : ℚ) ^ 1074 = 2 ^ 896 * 2 ^ 178 := by rw [← pow_add]
    rw [div_eq_iff (by positivity), hbias, pow_add, pow_add]
    generalize (2 : ℚ) ^ 896 = bias
    ring

end LoadFactor

namespace Config

variable {lf : LoadFactor} {count doublings capacity c : Nat}

/-! ### Numbers of slots that are enough -/

theorem enoughFor_iff : enoughFor lf count c = true ↔ count ≤ lf.maxSize c ∨ 2 * count ≤ c := decide_eq_true_iff

theorem enoughFor_mono {d : Nat} (hcd : c ≤ d) (h : enoughFor lf count c = true) : enoughFor lf count d = true := by
  rw [enoughFor_iff] at h ⊢
  have hmono := lf.maxSize_mono hcd
  omega

theorem enoughFor_of_fit? (h : fit? lf count doublings capacity = some c) : enoughFor lf count c = true := by
  induction doublings generalizing capacity with
  | zero =>
    rw [fit?] at h
    split at h
    · rwa [← Option.some.inj h]
    · cases h
  | succ doublings ih =>
    rw [fit?] at h
    split at h
    · rwa [← Option.some.inj h]
    · exact ih h

theorem not_enoughFor_of_fit? (h : fit? lf count doublings capacity = none) :
    enoughFor lf count (capacity * 2 ^ doublings) = false := by
  induction doublings generalizing capacity with
  | zero =>
    rw [fit?] at h
    split at h
    · cases h
    · rename_i hshort
      rwa [Nat.pow_zero, Nat.mul_one, ← Bool.not_eq_true]
  | succ doublings ih =>
    rw [fit?] at h
    split at h
    · cases h
    · rw [← double_mul_two_pow]
      exact ih h

/-- There is no answer only if the greatest number of slots is not enough. -/
theorem fit?_eq_none_iff : fit? lf count maxDoublings 1 = none ↔ enoughFor lf count maxCapacity = false := by
  constructor
  · intro h
    have hshort := not_enoughFor_of_fit? h
    rwa [Nat.one_mul] at hshort
  · intro h
    cases hfit : fit? lf count maxDoublings 1 with
    | none => rfl
    | some c =>
      obtain ⟨n, hn, hc, -⟩ := exists_of_fit? hfit
      have hle : c ≤ maxCapacity := by
        rw [hc, Nat.one_mul]
        exact Nat.pow_le_pow_right Nat.two_pos hn
      rw [enoughFor_mono hle (enoughFor_of_fit? hfit)] at h
      cases h

/-- The answer is the least power of two that is enough. -/
theorem isLeast_of_fit? (h : fit? lf count maxDoublings 1 = some c) :
    IsLeast {c | (∃ n ≤ maxDoublings, c = 2 ^ n) ∧ enoughFor lf count c = true} c := by
  obtain ⟨n, hn, hc, hfirst⟩ := exists_of_fit? h
  rw [Nat.one_mul] at hc
  refine ⟨⟨⟨n, hn, hc⟩, enoughFor_of_fit? h⟩, ?_⟩
  rintro d ⟨⟨m, -, rfl⟩, henough⟩
  rw [hc]
  by_contra hless
  have hshort := hfirst m ((Nat.pow_lt_pow_iff_right Nat.one_lt_two).mp (Nat.not_le.mp hless))
  rw [Nat.one_mul, henough] at hshort
  cases hshort

/-! ### The search in words -/

/-- What is asked of a number of slots, in words. -/
def EnoughWord (lf : LoadFactor) (count c : UInt64) : Prop :=
  count.toNat ≤ lf.maxSize c.toNat ∨ Word.mulSaturating count 2 ≤ c

/-- The search for a number of slots, one round after the other. It goes on from a doubled number only if no bit was lost. -/
inductive Search (lf : LoadFactor) (count : UInt64) : UInt64 → Option UInt64 → Prop
  | found {c : UInt64} (henough : EnoughWord lf count c) : Search lf count c (some c)
  | refused {c : UInt64} (hshort : ¬EnoughWord lf count c) (hlimit : maxCapacity ≤ c.toNat) : Search lf count c none
  | doubled {c : UInt64} {outcome : Option UInt64} (hshort : ¬EnoughWord lf count c) (hlimit : c.toNat < maxCapacity)
      (hword : Word.mul? c 2 = some (c <<< 1)) (hrest : Search lf count (c <<< 1) outcome) : Search lf count c outcome

theorem enoughWord_iff {count c : UInt64} (hc : c.toNat ≤ maxCapacity) :
    EnoughWord lf count c ↔ enoughFor lf count.toNat c.toNat = true := by
  have hmax : maxCapacity = 2 ^ 30 := rfl
  have hlimit : wordLimit = 2 ^ 64 := rfl
  have htwo : (2 : UInt64).toNat = 2 := rfl
  -- Where the product saturates, it exceeds every capacity as the exact one does.
  have hle : Word.mulSaturating count 2 ≤ c ↔ 2 * count.toNat ≤ c.toNat := by
    rw [UInt64.le_iff_toNat_le, Word.toNat_mulSaturating, htwo]
    omega
  rw [EnoughWord, enoughFor_iff, hle]

theorem toNat_shiftLeft_one {c : UInt64} (h : c.toNat < maxCapacity) : (c <<< 1).toNat = 2 * c.toNat := by
  have hmax : maxCapacity = 2 ^ 30 := rfl
  rw [UInt64.toNat_shiftLeft]
  show c.toNat <<< 1 % 2 ^ 64 = _
  rw [Nat.shiftLeft_eq]
  omega

section Rounds

variable {count c : UInt64} {outcome : Option UInt64}

theorem search_of_enough (henough : EnoughWord lf count c) : Search lf count c outcome ↔ outcome = some c := by
  constructor
  · intro h
    cases h with
    | found => rfl
    | refused hshort => exact absurd henough hshort
    | doubled hshort => exact absurd henough hshort
  · rintro rfl
    exact .found henough

theorem search_of_limit (hshort : ¬EnoughWord lf count c) (hlimit : maxCapacity ≤ c.toNat) :
    Search lf count c outcome ↔ outcome = none := by
  constructor
  · intro h
    cases h with
    | found henough => exact absurd henough hshort
    | refused => rfl
    | doubled _ hsmall => exact absurd hlimit (Nat.not_le.mpr hsmall)
  · rintro rfl
    exact .refused hshort hlimit

theorem search_of_double (hshort : ¬EnoughWord lf count c) (hlimit : c.toNat < maxCapacity) :
    Search lf count c outcome ↔ Search lf count (c <<< 1) outcome := by
  constructor
  · intro h
    cases h with
    | found henough => exact absurd henough hshort
    | refused _ hlarge => exact absurd hlarge (Nat.not_le.mpr hlimit)
    | doubled _ _ _ hrest => exact hrest
  · have htwo : (2 : UInt64).toNat = 2 := rfl
    have hword : Word.mul? c 2 = some (c <<< 1) := by
      rw [Word.mul?_eq_some_iff, toNat_shiftLeft_one hlimit, htwo, Nat.mul_comm]
    exact .doubled hshort hlimit hword

/-- The search in words ends, and with the answer of the search in numbers. -/
theorem search_iff (hc : c.toNat * 2 ^ doublings = maxCapacity) :
    Search lf count c outcome ↔ fit? lf count.toNat doublings c.toNat = outcome.map UInt64.toNat := by
  have hle : c.toNat ≤ maxCapacity := hc ▸ Nat.le_mul_of_pos_right _ (Nat.two_pow_pos doublings)
  have hanswer : ∀ d : UInt64, outcome = some d ↔ some d.toNat = outcome.map UInt64.toNat := by
    intro d
    cases outcome <;> simp [UInt64.toNat_inj, eq_comm]
  induction doublings generalizing c with
  | zero =>
    rw [Nat.pow_zero, Nat.mul_one] at hc
    by_cases henough : EnoughWord lf count c
    · rw [fit?, if_pos ((enoughWord_iff hle).mp henough), search_of_enough henough]
      exact hanswer c
    · rw [fit?, if_neg ((enoughWord_iff hle).not.mp henough), search_of_limit henough hc.ge]
      cases outcome <;> simp
  | succ doublings ih =>
    by_cases henough : EnoughWord lf count c
    · rw [fit?, if_pos ((enoughWord_iff hle).mp henough), search_of_enough henough]
      exact hanswer c
    · have hpos : 0 < c.toNat := by
        have hmax : 0 < maxCapacity := by decide
        rw [← hc] at hmax
        exact (Nat.mul_pos_iff_of_pos_right (Nat.two_pow_pos _)).mp hmax
      have hlimit : c.toNat < maxCapacity :=
        hc ▸ lt_mul_of_one_lt_right hpos (Nat.one_lt_two_pow (Nat.succ_ne_zero doublings))
      have hdouble := toNat_shiftLeft_one hlimit
      have hrest : (c <<< 1).toNat * 2 ^ doublings = maxCapacity := by
        rw [hdouble, double_mul_two_pow]
        exact hc
      rw [fit?, if_neg ((enoughWord_iff hle).not.mp henough), search_of_double henough hlimit, ← hdouble]
      exact ih hrest (hrest ▸ Nat.le_mul_of_pos_right _ (Nat.two_pow_pos doublings))

end Rounds

/-! ### The chosen configuration -/

/-- The numbers of slots that are enough for so many pairs. They hold the pairs without growing, or they are twice as many. -/
def Sufficient (lf : LoadFactor) (count : Nat) : Set Nat :=
  {c | (∃ n, c = 2 ^ n) ∧ c ≤ 2 ^ 30 ∧ (count ≤ min (c - 1) ⌊(c : ℚ) * lf.value⌋₊ ∨ 2 * count ≤ c)}

theorem isLeast_sufficient (hvalid : lf.isValid = true) (h : fit? lf count maxDoublings 1 = some c) :
    IsLeast (Sufficient lf count) c := by
  have hsame : {c | (∃ n ≤ maxDoublings, c = 2 ^ n) ∧ enoughFor lf count c = true} = Sufficient lf count := by
    ext d
    have hdoublings : maxDoublings = 30 := rfl
    simp only [Sufficient, Set.mem_ofPred_eq, enoughFor_iff, LoadFactor.maxSize_eq_floor hvalid, ← and_assoc, hdoublings]
    refine and_congr_left fun _ => ?_
    constructor
    · rintro ⟨n, hn, rfl⟩
      exact ⟨⟨n, rfl⟩, Nat.pow_le_pow_right Nat.two_pos hn⟩
    · rintro ⟨⟨n, rfl⟩, hle⟩
      exact ⟨n, (Nat.pow_le_pow_iff_right Nat.one_lt_two).mp hle, rfl⟩
  rw [← hsame]
  exact isLeast_of_fit? h

theorem not_enoughFor_iff (hvalid : lf.isValid = true) : enoughFor lf count maxCapacity = false ↔
    2 ^ 30 < 2 * count ∧ min (2 ^ 30 - 1) ⌊(2 ^ 30 : ℚ) * lf.value⌋₊ < count := by
  have hmax : maxCapacity = 2 ^ 30 := rfl
  have hcast : ((2 ^ 30 : Nat) : ℚ) = 2 ^ 30 := by norm_num
  rw [← Bool.not_eq_true, enoughFor_iff, LoadFactor.maxSize_eq_floor hvalid, hmax, hcast]
  omega

/-- What becomes of a count and a load factor when a configuration is asked for. -/
structure ChosenExactly (count : UInt64) (lf : LoadFactor) : Prop where
  refused_or_chosen : (∃ why, forPersisted count.toNat lf = .error (.invalidArgument why)) ∨
    ∃ c, forPersisted count.toNat lf = .ok ⟨c, lf⟩
  /-- The load factor is not valid, or not even the greatest number of slots is enough. -/
  refused_iff : (∃ why, forPersisted count.toNat lf = .error (.invalidArgument why)) ↔
    ¬(lf.IsFinite ∧ 1 / 32 ≤ lf.value) ∨
      (2 ^ 30 < 2 * count.toNat ∧ min (2 ^ 30 - 1) ⌊(2 ^ 30 : ℚ) * lf.value⌋₊ < count.toNat)
  isLeast {c : Nat} (h : forPersisted count.toNat lf = .ok ⟨c, lf⟩) : IsLeast (Sufficient lf count.toNat) c
  /-- The configuration is valid, and the table made from it has just so many slots. -/
  allocates {c : Nat} (h : forPersisted count.toNat lf = .ok ⟨c, lf⟩) : validate ⟨c, lf⟩ = .ok () ∧
    ∀ {K V : Type} (hash : K → UInt64) (id : Nat), ∃ t : Table K V,
      Table.create hash ⟨c, lf⟩ id = .ok t ∧ t.slots.size = c
  /-- In words the search ends in one way only, without losing a bit. -/
  search (hlf : lf.IsFinite ∧ 1 / 32 ≤ lf.value) : ∃ outcome, (∀ other, Search lf count 1 other ↔ other = outcome) ∧
    forPersisted count.toNat lf = match outcome with
      | some c => .ok ⟨c.toNat, lf⟩
      | none => .error (.invalidArgument (.tooManyPairs count.toNat))
  /-- The products that the count is compared with are not rounded. -/
  product (hlf : lf.IsFinite ∧ 1 / 32 ≤ lf.value) {n : Nat} (hn : n ≤ 30) : ∃ x : Double, x.isNegative = false ∧
    x.magnitude < FloatFormat.double.infinity ∧ (Double.steps x.magnitude : ℚ) / 2 ^ 1074 = 2 ^ n * lf.value

theorem refused_iff_of_isValid (hvalid : lf.isValid = true) (count : Nat) :
    (∃ why, forPersisted count lf = .error (.invalidArgument why)) ↔ enoughFor lf count maxCapacity = false := by
  rw [forPersisted_of_isValid hvalid, ← fit?_eq_none_iff]
  cases fit? lf count maxDoublings 1 <;> simp

theorem exists_search (hvalid : lf.isValid = true) (count : UInt64) : ∃ outcome,
    (∀ other, Search lf count 1 other ↔ other = outcome) ∧ forPersisted count.toNat lf = match outcome with
      | some c => .ok ⟨c.toNat, lf⟩
      | none => .error (.invalidArgument (.tooManyPairs count.toNat)) := by
  have hsearch : ∀ other, Search lf count 1 other ↔ fit? lf count.toNat maxDoublings 1 = other.map UInt64.toNat :=
    fun other => search_iff rfl
  rw [forPersisted_of_isValid hvalid]
  cases hfit : fit? lf count.toNat maxDoublings 1 with
  | none =>
    refine ⟨none, fun other => ?_, rfl⟩
    rw [hsearch, hfit]
    cases other <;> simp
  | some c =>
    obtain ⟨-, hle, -⟩ := (isLeast_sufficient hvalid hfit).1
    obtain ⟨w, -, rfl⟩ := Word.exists_ofNat? (n := c) (Nat.lt_of_le_of_lt hle (by decide))
    refine ⟨some w, fun other => ?_, rfl⟩
    rw [hsearch, hfit]
    cases other <;> simp [UInt64.toNat_inj, eq_comm]

/-- For every count and every load factor the least sufficient number of slots is chosen, unless the load factor is not valid or there is no such number. -/
theorem forPersisted_exact (count : UInt64) (lf : LoadFactor) : ChosenExactly count lf := by
  have hfit : ∀ {c}, forPersisted count.toNat lf = .ok ⟨c, lf⟩ →
      lf.isValid = true ∧ fit? lf count.toNat maxDoublings 1 = some c := by
    intro c h
    obtain ⟨hvalid, d, hd, hconfig⟩ := forPersisted_eq_ok_iff.mp h
    obtain rfl : c = d := congrArg initialCapacity hconfig
    exact ⟨hvalid, hd⟩
  constructor
  case refused_or_chosen =>
    by_cases hvalid : lf.isValid = true
    · rw [forPersisted_of_isValid hvalid]
      cases fit? lf count.toNat maxDoublings 1 with
      | none => exact Or.inl ⟨_, rfl⟩
      | some c => exact Or.inr ⟨c, rfl⟩
    · exact Or.inl ⟨_, forPersisted_of_not_isValid hvalid count.toNat⟩
  case refused_iff =>
    rw [← LoadFactor.isValid_iff]
    by_cases hvalid : lf.isValid = true
    · rw [refused_iff_of_isValid hvalid, not_enoughFor_iff hvalid]
      exact (or_iff_right (not_not.mpr hvalid)).symm
    · exact iff_of_true ⟨_, forPersisted_of_not_isValid hvalid count.toNat⟩ (Or.inl hvalid)
  case isLeast =>
    intro c h
    obtain ⟨hvalid, hfit⟩ := hfit h
    exact isLeast_sufficient hvalid hfit
  case allocates =>
    intro c h
    obtain ⟨hvalid, hfit⟩ := hfit h
    obtain ⟨hvalidate, hslots⟩ := allocates_of_fit? hvalid hfit
    refine ⟨hvalidate, fun hash id => ⟨Table.build hash ⟨c, lf⟩ id, ?_, ?_⟩⟩
    · rw [Table.create, hvalidate]
    · exact (size_emptySlots _).trans hslots
  case search =>
    intro hlf
    exact exists_search ((LoadFactor.isValid_iff lf).mpr hlf) count
  case product =>
    intro hlf n hn
    exact LoadFactor.exists_double_product ((LoadFactor.isValid_iff lf).mpr hlf) hn

end Config

end FlatTable

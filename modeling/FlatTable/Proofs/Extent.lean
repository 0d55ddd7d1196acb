import FlatTable.Config
import FlatTable.Proofs.Threshold
import Mathlib.Order.Bounds.Basic

/-!
# Counts and capacities

Whether a table grows depends on three numbers only: its count, its capacity and its threshold. Storing a new pair raises the count by one and doubles the capacity at most once. If nothing else raises any of the three, the capacity follows from the first one and from the greatest count reached.
-/

namespace FlatTable

/-- The numbers that decide when a table grows. -/
structure Extent where
  size : Nat
  capacity : Nat
  maxSize : Nat

namespace Extent

variable {lf : LoadFactor} {start peak : Nat} {e e' : Extent}

/-- Once the largest capacity was to be doubled, no count reaches the threshold. -/
def Saturated (e : Extent) : Prop := maxCapacity ≤ e.capacity ∧ e.maxSize = wordLimit - 1

def doubled (lf : LoadFactor) (e : Extent) : Extent :=
  if maxCapacity ≤ e.capacity then { e with maxSize := wordLimit - 1 }
  else { e with capacity := 2 * e.capacity, maxSize := lf.maxSize (2 * e.capacity) }

/-- After a new pair was stored. -/
def stored (lf : LoadFactor) (e : Extent) : Extent :=
  if e.maxSize < e.size + 1 then { e.doubled lf with size := e.size + 1 } else { e with size := e.size + 1 }

theorem doubled_withSize (lf : LoadFactor) (e : Extent) (size : Nat) :
    ({ e with size := size } : Extent).doubled lf = { e.doubled lf with size := size } := by
  rw [doubled, doubled]
  split <;> rfl

theorem stored_of_lt (h : e.size < e.maxSize) : e.stored lf = { e with size := e.size + 1 } := by
  rw [stored, if_neg (by omega)]

theorem stored_of_le (h : e.maxSize ≤ e.size) (hsmall : e.capacity < maxCapacity) :
    e.stored lf = ⟨e.size + 1, 2 * e.capacity, lf.maxSize (2 * e.capacity)⟩ := by
  rw [stored, if_pos (by omega), doubled, if_neg (by omega)]

theorem size_stored (lf : LoadFactor) (e : Extent) : (e.stored lf).size = e.size + 1 := by
  rw [stored]
  split <;> rfl

theorem saturated_stored (h : e.Saturated) : (e.stored lf).Saturated := by
  rw [stored]
  split
  · rw [doubled, if_pos h.1]
    exact ⟨h.1, rfl⟩
  · exact h

theorem saturated_stored_of_le (h : e.maxSize ≤ e.size) (hlarge : maxCapacity ≤ e.capacity) :
    (e.stored lf).Saturated := by
  rw [stored, if_pos (by omega), doubled, if_pos hlarge]
  exact ⟨hlarge, rfl⟩

/-! ### What growth leads to -/

/-- If a capacity was doubled, then because its half was not enough for so many pairs. -/
def Needed (lf : LoadFactor) (start peak capacity : Nat) : Prop :=
  capacity = start ∨ ∃ half, capacity = 2 * half ∧ lf.maxSize half < peak

theorem Needed.mono {peak' capacity : Nat} (h : Needed lf start peak capacity) (hpeak : peak ≤ peak') :
    Needed lf start peak' capacity :=
  h.imp_right fun ⟨half, hhalf, hfull⟩ => ⟨half, hhalf, Nat.lt_of_lt_of_le hfull hpeak⟩

/-- What is known of a table that was made with some capacity and has held up to so many pairs. -/
structure Fits (lf : LoadFactor) (start peak : Nat) (e : Extent) : Prop where
  maxSize_eq : e.maxSize = lf.maxSize e.capacity
  size_le : e.size ≤ peak
  size_lt : e.size < e.capacity
  start_le : start ≤ e.capacity
  needed : Needed lf start peak e.capacity
  /-- One doubling was always enough. -/
  room : lf.Roomy start → peak ≤ lf.maxSize e.capacity

theorem fits_start (lf : LoadFactor) (hpos : 0 < start) : Fits lf start 0 ⟨0, start, lf.maxSize start⟩ where
  maxSize_eq := rfl
  size_le := Nat.le_refl 0
  size_lt := hpos
  start_le := Nat.le_refl start
  needed := Or.inl rfl
  room _ := Nat.zero_le _

theorem fits_stored (h : e.Fits lf start peak) (hroom : e.size < e.maxSize ∨ e.capacity < maxCapacity) :
    (e.stored lf).Fits lf start (max peak (e.size + 1)) := by
  have hsize := h.size_lt
  rcases Nat.lt_or_ge e.size e.maxSize with hlt | hfull
  · have hmax : e.maxSize < e.capacity := h.maxSize_eq ▸ lf.maxSize_lt (by omega)
    rw [stored_of_lt hlt]
    refine ⟨h.maxSize_eq, Nat.le_max_right _ _, Nat.lt_of_le_of_lt hlt hmax, h.start_le,
      h.needed.mono (Nat.le_max_left _ _), fun hroomy => ?_⟩
    exact max_le (h.room hroomy) (h.maxSize_eq ▸ hlt)
  · rw [stored_of_le hfull (by omega)]
    have hstart := h.start_le
    have hhalf : lf.maxSize e.capacity < max peak (e.size + 1) := by
      rw [← h.maxSize_eq]
      omega
    refine ⟨rfl, Nat.le_max_right _ _, by dsimp only; omega, by dsimp only; omega, Or.inr ⟨e.capacity, rfl, hhalf⟩, ?_⟩
    -- The greatest count so far is within the threshold, and the new pair raises it by one at most.
    intro hroomy
    have hpeak := h.room hroomy
    have hcount := h.size_le
    have hdouble := (hroomy.mono hstart).maxSize_double (by omega)
    dsimp only
    omega

theorem size_iterate_stored (lf : LoadFactor) (n : Nat) (e : Extent) : ((stored lf)^[n] e).size = e.size + n := by
  induction n with
  | zero => rfl
  | succ n ih => rw [Function.iterate_succ_apply', size_stored, ih, Nat.add_assoc]

/-- So few pairs never meet the largest capacity, whatever the load factor. -/
theorem fits_iterate_stored (hvalid : lf.isValid = true) (hpos : 0 < start) {n : Nat} (hn : n ≤ 2 ^ 24) :
    ((stored lf)^[n] ⟨0, start, lf.maxSize start⟩).Fits lf start n := by
  induction n with
  | zero => exact fits_start lf hpos
  | succ n ih =>
    have hfits := ih (Nat.le_of_succ_le hn)
    have hsize : ((stored lf)^[n] ⟨0, start, lf.maxSize start⟩).size = n :=
      (size_iterate_stored lf n _).trans (Nat.zero_add n)
    have hmax : maxCapacity = 2 ^ 30 := by decide
    have hsparse := LoadFactor.le_maxSize hvalid ((stored lf)^[n] ⟨0, start, lf.maxSize start⟩).capacity
    have hstored := fits_stored hfits (by rw [hfits.maxSize_eq]; omega)
    rw [hsize, Nat.max_eq_right (Nat.le_succ n)] at hstored
    rw [Function.iterate_succ_apply']
    exact hstored

theorem Fits.capacity_le (h : e.Fits lf start peak) (hvalid : lf.isValid = true) :
    e.capacity ≤ max start (64 * peak) := by
  rcases h.needed with hstart | ⟨half, hhalf, hfull⟩
  · omega
  · have hsparse := LoadFactor.le_maxSize hvalid half
    omega

/-- The capacity is that of the beginning, unless more is needed for the greatest count. -/
theorem Fits.isLeast (h : e.Fits lf start peak) (hroomy : lf.Roomy start) (hpow : ∃ n, e.capacity = 2 ^ n) :
    ∃ c, IsLeast {c | (∃ n, c = 2 ^ n) ∧ peak ≤ lf.maxSize c} c ∧ e.capacity = max start c := by
  obtain ⟨n, hn⟩ := hpow
  have henough : peak ≤ lf.maxSize (2 ^ n) := hn ▸ h.room hroomy
  -- Among the powers of two that are enough there is a least one.
  obtain ⟨m, hm, hmin⟩ : ∃ m, peak ≤ lf.maxSize (2 ^ m) ∧ ∀ k, peak ≤ lf.maxSize (2 ^ k) → m ≤ k := by
    have hexists : ∃ k, peak ≤ lf.maxSize (2 ^ k) := ⟨n, henough⟩
    exact ⟨Nat.find hexists, Nat.find_spec hexists, fun k => Nat.find_min' hexists⟩
  refine ⟨2 ^ m, ⟨⟨⟨m, rfl⟩, hm⟩, ?_⟩, ?_⟩
  · rintro c ⟨⟨k, rfl⟩, hk⟩
    exact Nat.pow_le_pow_right Nat.two_pos (hmin k hk)
  · have hle : 2 ^ m ≤ 2 ^ n := Nat.pow_le_pow_right Nat.two_pos (hmin n henough)
    have hstart := h.start_le
    rcases h.needed with hsame | ⟨half, hhalf, hfull⟩
    · omega
    · -- The half is not enough, so no smaller power of two is.
      have hlarge : half < 2 ^ m := by
        by_contra hsmall
        have hmono := lf.maxSize_mono (Nat.le_of_not_lt hsmall)
        omega
      rcases Nat.lt_or_ge m n with hlt | hge
      · have hdouble : 2 ^ (m + 1) ≤ 2 ^ n := Nat.pow_le_pow_right Nat.two_pos hlt
        rw [Nat.pow_succ] at hdouble
        omega
      · have hsame : 2 ^ n ≤ 2 ^ m := Nat.pow_le_pow_right Nat.two_pos hge
        omega

/-! ### Tables of one extent after another -/

/-- Nothing grew and no pair was added. -/
structure Shrinks (e e' : Extent) : Prop where
  capacity : e'.capacity = e.capacity
  maxSize : e'.maxSize = e.maxSize
  size_le : e'.size ≤ e.size

theorem Shrinks.refl (e : Extent) : e.Shrinks e := ⟨rfl, rfl, Nat.le_refl _⟩

theorem Shrinks.trans {e'' : Extent} (h : e.Shrinks e') (h' : e'.Shrinks e'') : e.Shrinks e'' :=
  ⟨h'.capacity.trans h.capacity, h'.maxSize.trans h.maxSize, h'.size_le.trans h.size_le⟩

/-- What holds of every table that operations lead to: it has given up growing, or it fits its greatest count. -/
def Governed (lf : LoadFactor) (start peak : Nat) (e : Extent) : Prop := e.Saturated ∨ e.Fits lf start peak

theorem governed_stored (h : e.Governed lf start peak) : (e.stored lf).Governed lf start (max peak (e.size + 1)) := by
  rcases h with hsaturated | hfits
  · exact Or.inl (saturated_stored hsaturated)
  · rcases Nat.lt_or_ge e.size e.maxSize with hlt | hfull
    · exact Or.inr (fits_stored hfits (Or.inl hlt))
    · rcases Nat.lt_or_ge e.capacity maxCapacity with hsmall | hlarge
      · exact Or.inr (fits_stored hfits (Or.inr hsmall))
      · exact Or.inl (saturated_stored_of_le hfull hlarge)

theorem governed_of_shrinks (hshrinks : e.Shrinks e') (h : e.Governed lf start peak) :
    e'.Governed lf start (max peak e'.size) := by
  obtain ⟨hcapacity, hmaxSize, hsize⟩ := hshrinks
  rcases h with hsaturated | hfits
  · left
    rw [Saturated, hcapacity, hmaxSize]
    exact hsaturated
  · right
    have hlt := hfits.size_lt
    refine ⟨?_, Nat.le_max_right _ _, by omega, hcapacity ▸ hfits.start_le, ?_, ?_⟩
    · rw [hmaxSize, hcapacity, hfits.maxSize_eq]
    · rw [hcapacity]
      exact hfits.needed.mono (Nat.le_max_left _ _)
    · intro hroomy
      rw [hcapacity]
      exact max_le (hfits.room hroomy) (hsize.trans (hfits.size_le.trans (hfits.room hroomy)))

end Extent

end FlatTable

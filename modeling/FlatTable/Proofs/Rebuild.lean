import FlatTable.Proofs.Growth
import FlatTable.Proofs.InsertionOrder

/-!
# Rebuilding tables

A decoder makes a slot array ready for some number of pairs, stores the pairs in order and compares two counts. What comes of it is settled by the pairs, except for the capacity, and that depends on the number of pairs made ready for only where the load factor is so small that the room made is not filled.
-/

namespace FlatTable

/-! ### Room for the pairs -/

namespace Config

variable {lf : LoadFactor} {count doublings capacity c : Nat}

theorem double_mul_two_pow (capacity n : Nat) : 2 * capacity * 2 ^ n = capacity * 2 ^ (n + 1) := by ring

/-- Some doubling is enough, since the last one is. -/
theorem exists_fit? (lf : LoadFactor) (h : 2 * count ≤ capacity * 2 ^ doublings) :
    ∃ c, fit? lf count doublings capacity = some c := by
  induction doublings generalizing capacity with
  | zero =>
    rw [Nat.pow_zero, Nat.mul_one] at h
    have henough : enoughFor lf count capacity = true := decide_eq_true (Or.inr h)
    exact ⟨capacity, by rw [fit?, if_pos henough]⟩
  | succ doublings ih =>
    rw [fit?]
    split
    · exact ⟨capacity, rfl⟩
    · apply ih
      rwa [double_mul_two_pow]

/-- The doubling that is found is the first that is enough. -/
theorem exists_of_fit? (h : fit? lf count doublings capacity = some c) : ∃ n ≤ doublings, c = capacity * 2 ^ n ∧
    ∀ m < n, enoughFor lf count (capacity * 2 ^ m) = false := by
  have hstart : ∀ {doublings capacity : Nat}, some capacity = some c → ∃ n ≤ doublings, c = capacity * 2 ^ n ∧
      ∀ m < n, enoughFor lf count (capacity * 2 ^ m) = false := by
    rintro doublings capacity ⟨⟩
    exact ⟨0, Nat.zero_le _, (Nat.mul_one _).symm, fun m hm => absurd hm (Nat.not_lt_zero m)⟩
  induction doublings generalizing capacity with
  | zero =>
    rw [fit?] at h
    split at h
    · exact hstart h
    · cases h
  | succ doublings ih =>
    rw [fit?] at h
    split at h
    · exact hstart h
    · rename_i hshort
      obtain ⟨n, hn, hc, hfirst⟩ := ih h
      refine ⟨n + 1, Nat.succ_le_succ hn, by rw [hc, double_mul_two_pow], ?_⟩
      intro m hm
      cases m with
      | zero => rwa [Nat.pow_zero, Nat.mul_one, ← Bool.not_eq_true]
      | succ m => rw [← double_mul_two_pow, hfirst m (Nat.lt_of_succ_lt_succ hm)]

theorem slotCapacity_two_pow {n : Nat} (hn : n ≤ maxDoublings) (lf : LoadFactor) :
    slotCapacity ⟨2 ^ n, lf⟩ = 2 ^ n := by
  have hpowers : ∀ k ≤ maxDoublings, (max (2 ^ k) 1).nextPowerOfTwo = 2 ^ k := by decide +kernel
  exact hpowers n hn

theorem validate_eq_ok_iff {config : Config} :
    config.validate = .ok () ↔ config.loadFactor.isValid = true ∧ config.initialCapacity ≤ maxCapacity := by
  rw [validate]
  rcases config.loadFactor.isValid with - | - <;> simp

theorem forPersisted_of_not_isValid (h : ¬lf.isValid = true) (count : Nat) :
    forPersisted count lf = .error (.invalidArgument (.loadFactor lf)) := by
  rw [Bool.not_eq_true] at h
  have hvalidate : Config.validate { loadFactor := lf } = .error (.invalidArgument (.loadFactor lf)) := by
    rw [Config.validate, h]
    rfl
  rw [forPersisted, hvalidate]
  rfl

theorem forPersisted_of_isValid (h : lf.isValid = true) (count : Nat) : forPersisted count lf =
    match fit? lf count maxDoublings 1 with
    | some c => .ok ⟨c, lf⟩
    | none => .error (.invalidArgument (.tooManyPairs count)) := by
  have hdefault : defaultCapacity ≤ maxCapacity := by decide
  have hvalidate : validate { loadFactor := lf } = .ok () := validate_eq_ok_iff.mpr ⟨h, hdefault⟩
  rw [forPersisted, hvalidate]
  cases fit? lf count maxDoublings 1 <;> rfl

theorem forPersisted_eq_ok_iff {config : Config} : forPersisted count lf = .ok config ↔
    lf.isValid = true ∧ ∃ c, fit? lf count maxDoublings 1 = some c ∧ config = ⟨c, lf⟩ := by
  by_cases hvalid : lf.isValid = true
  · rw [forPersisted_of_isValid hvalid]
    cases fit? lf count maxDoublings 1 <;> simp [hvalid, eq_comm]
  · rw [forPersisted_of_not_isValid hvalid]
    simp [hvalid]

theorem allocates_of_fit? (hvalid : lf.isValid = true) (h : fit? lf count maxDoublings 1 = some c) :
    validate ⟨c, lf⟩ = .ok () ∧ slotCapacity ⟨c, lf⟩ = c := by
  obtain ⟨n, hn, rfl, -⟩ := exists_of_fit? h
  rw [Nat.one_mul]
  exact ⟨validate_eq_ok_iff.mpr ⟨hvalid, Nat.pow_le_pow_right Nat.two_pos hn⟩, slotCapacity_two_pow hn lf⟩

end Config

variable {K V : Type}

namespace Table

theorem readyFor_eq_ok_iff {hash : K → UInt64} {count : Nat} {lf : LoadFactor} {id : Nat} {t : Table K V} :
    readyFor hash count lf id = .ok t ↔
      lf.isValid = true ∧ ∃ c, Config.fit? lf count maxDoublings 1 = some c ∧ t = build hash ⟨c, lf⟩ id := by
  have hcreate : ∀ c, Config.fit? lf count maxDoublings 1 = some c → lf.isValid = true →
      create hash ⟨c, lf⟩ id = .ok (build hash ⟨c, lf⟩ id : Table K V) := by
    intro c hfit hvalid
    rw [create, (Config.allocates_of_fit? hvalid hfit).1]
  simp only [readyFor, bind_eq_ok_iff, Config.forPersisted_eq_ok_iff]
  constructor
  · rintro ⟨_, ⟨hvalid, c, hfit, rfl⟩, h⟩
    rw [hcreate c hfit hvalid] at h
    exact ⟨hvalid, c, hfit, (Except.ok.inj h).symm⟩
  · rintro ⟨hvalid, c, hfit, rfl⟩
    exact ⟨_, ⟨hvalid, c, hfit, rfl⟩, hcreate c hfit hvalid⟩

/-- A table for `2 ^ 24` pairs is far from the largest one, even at the double of the room. -/
theorem two_mul_le_maxCapacity {count : Nat} (h : count ≤ 2 ^ 24) : 2 * count ≤ maxCapacity := by
  have hmax : maxCapacity = 2 ^ 30 := by decide
  omega

theorem exists_readyFor {lf : LoadFactor} (hvalid : lf.isValid = true) {count : Nat} (hroom : 2 * count ≤ maxCapacity)
    (hash : K → UInt64) (id : Nat) : ∃ c, Config.fit? lf count maxDoublings 1 = some c ∧
      readyFor hash count lf id = .ok (build hash ⟨c, lf⟩ id : Table K V) := by
  have hmax : maxCapacity = 1 * 2 ^ maxDoublings := by decide
  obtain ⟨c, hfit⟩ := Config.exists_fit? lf (hmax ▸ hroom)
  exact ⟨c, hfit, readyFor_eq_ok_iff.mpr ⟨hvalid, c, hfit, rfl⟩⟩

/-! ### Rebuilt tables -/

variable [BEq K]

/-- A table rebuilt from pairs of which so many were declared, after it was made ready for some number of them. -/
structure Rebuilt (hash : K → UInt64) (ready declared : Nat) (lf : LoadFactor) (pairs : List (K × V)) (id : Nat)
    (t : Table K V) : Prop where
  isValid : lf.isValid = true
  filled : ∃ c, Config.fit? lf ready maxDoublings 1 = some c ∧ t = (build hash ⟨c, lf⟩ id).extend pairs
  length_eq : pairs.length = declared
  size_eq : t.size = declared

variable {hash : K → UInt64} {ready declared : Nat} {lf : LoadFactor} {pairs pairs' : List (K × V)} {id id' : Nat}
  {t u : Table K V}

theorem checkCount_eq_ok_iff {actual distinct : Nat} {passed : Unit} :
    checkCount declared actual distinct = .ok passed ↔ actual = declared ∧ distinct = declared := by
  rw [checkCount]
  by_cases hactual : actual = declared
  · by_cases hdistinct : distinct = declared <;> simp [hactual, hdistinct]
  · simp [hactual]

/-- What all decoders do once the pairs are known. -/
theorem rebuilt_iff {ε : Type} : Rebuilt hash ready declared lf pairs id t ↔
    ∃ first, readyFor hash ready lf id = .ok first ∧
      ∃ _ : Unit, (pairs.length = declared ∧ (first.extend pairs).size = declared) ∧
        (.ok (first.extend pairs) : Except ε (Table K V)) = .ok t := by
  simp only [readyFor_eq_ok_iff]
  constructor
  · rintro ⟨hvalid, ⟨c, hfit, rfl⟩, hlength, hsize⟩
    exact ⟨_, ⟨hvalid, c, hfit, rfl⟩, (), ⟨hlength, hsize⟩, rfl⟩
  · rintro ⟨_, ⟨hvalid, c, hfit, rfl⟩, -, ⟨hlength, hsize⟩, hresult⟩
    obtain rfl := Except.ok.inj hresult
    exact ⟨hvalid, ⟨c, hfit, rfl⟩, hlength, hsize⟩

theorem ofPersisted_eq_ok_iff :
    ofPersisted hash declared lf pairs id = .ok t ↔ Rebuilt hash declared declared lf pairs id t := by
  simp only [ofPersisted, bind_eq_ok_iff, checkCount_eq_ok_iff]
  exact rebuilt_iff.symm

/-- A form that could be read to its end is built if its parts are accepted. -/
theorem build_eq_ok_iff {ε : Type} {refused : TableError → ε} {hint : Option Nat} :
    (⟨declared, lf, pairs, none, none⟩ : Form K V ε).build refused hash hint id = .ok t ↔
      Rebuilt hash (presize declared hint) declared lf pairs id t := by
  simp only [Form.build, bind_eq_ok_iff, mapError_eq_ok_iff, checkCount_eq_ok_iff]
  exact rebuilt_iff.symm

section Equivalence

variable [EquivBEq K]

theorem size_extend_build (hash : K → UInt64) (config : Config) (id : Nat) (pairs : List (K × V)) :
    ((build hash config id).extend pairs).size =
      (pairs.foldl (fun m p => m.insert (sameKey hash) p.1 p.2) ({} : PairMap K V)).size :=
  size_eq_of_models (models_extend (models_build hash config id) pairs)

theorem foldl_insert_empty_of_distinct (h : PairMap.Distinct (sameKey hash) pairs) :
    pairs.foldl (fun m p => m.insert (sameKey hash) p.1 p.2) ({} : PairMap K V) = ⟨pairs⟩ :=
  PairMap.foldl_insert_of_distinct (sameKey_equivalence hash) [] pairs h

/-- Pairs with distinct keys are accepted. -/
theorem exists_rebuilt (hvalid : lf.isValid = true) (hready : 2 * ready ≤ maxCapacity)
    (hdistinct : PairMap.Distinct (sameKey hash) pairs) (id : Nat) :
    ∃ t, Rebuilt hash ready pairs.length lf pairs id t := by
  obtain ⟨c, hfit, -⟩ := exists_readyFor (V := V) hvalid hready hash id
  refine ⟨_, hvalid, ⟨c, hfit, rfl⟩, rfl, ?_⟩
  rw [size_extend_build, foldl_insert_empty_of_distinct hdistinct]
  rfl

namespace Rebuilt

theorem distinct (h : Rebuilt hash ready declared lf pairs id t) : PairMap.Distinct (sameKey hash) pairs := by
  obtain ⟨c, -, rfl⟩ := h.filled
  have hsize : (pairs.foldl (fun m p => m.insert (sameKey hash) p.1 p.2) ({} : PairMap K V)).size =
      ({} : PairMap K V).size + pairs.length := by
    rw [← size_extend_build hash ⟨c, lf⟩ id, h.size_eq, h.length_eq]
    exact (Nat.zero_add declared).symm
  exact PairMap.distinct_of_size_foldl_insert List.Pairwise.nil hsize

theorem hash_eq (h : Rebuilt hash ready declared lf pairs id t) : t.hash = hash := by
  obtain ⟨c, -, rfl⟩ := h.filled
  exact (keeps_extend _ pairs).hash

theorem loadFactor_eq (h : Rebuilt hash ready declared lf pairs id t) : t.loadFactor = lf := by
  obtain ⟨c, -, rfl⟩ := h.filled
  exact (keeps_extend _ pairs).loadFactor

theorem inOrder (h : Rebuilt hash ready declared lf pairs id t) : t.InOrder ⟨pairs⟩ := by
  have hpairs := foldl_insert_empty_of_distinct h.distinct
  obtain ⟨c, -, rfl⟩ := h.filled
  have hfilled := inOrder_extend (inOrder_build hash ⟨c, lf⟩ id) pairs
  rw [← hpairs]
  exact hfilled

/-- The extent is counted up from that of the array made ready. -/
theorem exists_extent (h : Rebuilt hash ready declared lf pairs id t) : ∃ n ≤ maxDoublings,
    Config.fit? lf ready maxDoublings 1 = some (2 ^ n) ∧
      t.extent = (Extent.stored lf)^[declared] ⟨0, 2 ^ n, lf.maxSize (2 ^ n)⟩ := by
  have hdistinct := h.distinct
  have hlength := h.length_eq
  obtain ⟨c, hfit, rfl⟩ := h.filled
  obtain ⟨n, hn, hc, -⟩ := Config.exists_of_fit? hfit
  rw [Nat.one_mul] at hc
  have hextent := extent_extend_of_distinct (models_build hash ⟨c, lf⟩ id) pairs hdistinct
  rw [extent_build, hlength, hc, Config.slotCapacity_two_pow hn] at hextent
  exact ⟨n, hn, hc ▸ hfit, hc ▸ hextent⟩

theorem extent_eq (h : Rebuilt hash ready declared lf pairs id t) (h' : Rebuilt hash ready declared lf pairs' id' u) :
    u.extent = t.extent := by
  obtain ⟨n, -, hfit, hextent⟩ := h.exists_extent
  obtain ⟨n', -, hfit', hextent'⟩ := h'.exists_extent
  rw [hextent, hextent', Option.some.inj (hfit'.symm.trans hfit)]

/-- At a load factor of one half or more the final capacity is the least power of two that is enough for all pairs, since no more than this was made ready. -/
theorem isLeast_capacity (h : Rebuilt hash ready declared lf pairs id t) (hready : ready ≤ declared)
    (hcount : declared ≤ 2 ^ 24) (hhalf : 1 / 2 ≤ lf.value) :
    IsLeast {c | (∃ n, c = 2 ^ n) ∧ declared ≤ lf.maxSize c} t.capacity ∧ t.maxSize = lf.maxSize t.capacity := by
  obtain ⟨n, -, hfit, hextent⟩ := h.exists_extent
  have hfits := Extent.fits_iterate_stored h.isValid (Nat.two_pow_pos n) hcount
  rw [← hextent] at hfits
  obtain ⟨c, hleast, hcapacity⟩ := hfits.isLeast (LoadFactor.roomy_of_half_le h.isValid hhalf _)
    h.inOrder.layout.capacity_pow
  obtain ⟨k, rfl⟩ := hleast.1.1
  have henough := hleast.1.2
  have hle : 2 ^ n ≤ 2 ^ k := by
    obtain ⟨m, -, hm, hfirst⟩ := Config.exists_of_fit? hfit
    rw [Nat.one_mul] at hm
    by_contra hlarge
    rw [hm, Nat.not_le, Nat.pow_lt_pow_iff_right Nat.one_lt_two] at hlarge
    have hshort := hfirst k hlarge
    rw [Nat.one_mul, Config.enoughFor, decide_eq_false_iff_not, not_or] at hshort
    exact hshort.1 (hready.trans henough)
  have hsame : t.capacity = 2 ^ k := hcapacity.trans (Nat.max_eq_right hle)
  exact ⟨hsame ▸ hleast, hfits.maxSize_eq⟩

end Rebuilt

end Equivalence

end Table

end FlatTable

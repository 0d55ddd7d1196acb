import FlatTable.Proofs.InsertionOnly
import FlatTable.Proofs.RebuiltCapacity
import Mathlib.Tactic.IntervalCases

/-!
# Growth at small load factors

A new pair doubles the slot array once at most. Where the load factor is so small that the first thresholds are zero, one doubling for each pair may not be enough, and a table then holds more pairs than its threshold allows. As long as it lags behind, every new pair doubles the array, and once the threshold has caught up with the count it never falls behind again. So whether a table of some pairs is within its threshold can be told from as many doublings of the capacity it started with.

At the least load factor the eighth pair is the last that can be needed, and a table that is rebuilt from four pairs or more starts with enough slots to be within its threshold at the end.
-/

namespace FlatTable

/-! ### As many doublings as pairs -/

namespace LoadFactor

variable {lf : LoadFactor} {start n : Nat}

/-- Where some pairs are within the threshold, one more is within that of the doubled capacity. -/
theorem succ_le_maxSize_double {c : Nat} (hpos : 0 < n) (h : n ≤ lf.maxSize c) : n + 1 ≤ lf.maxSize (2 * c) := by
  have hcapacity : 0 < c := by
    rcases Nat.eq_zero_or_pos c with hzero | hcapacity
    · rw [hzero, maxSize_eq_min] at h
      omega
    · exact hcapacity
  have hroomy : lf.Roomy c := Or.inl (Nat.le_trans hpos h)
  exact (Nat.succ_le_succ h).trans (hroomy.maxSize_double hcapacity)

/-- A threshold is a bound of its own wherever there are slots enough. -/
theorem le_maxSize_iff (hvalid : lf.isValid = true) {c : Nat} (hslots : n < c) :
    n ≤ lf.maxSize c ↔ (n : ℚ) ≤ c * lf.value := by
  have hvalue : (0 : ℚ) ≤ lf.value := le_trans (by norm_num) ((isValid_iff lf).mp hvalid).2
  rw [maxSize_eq_floor hvalid, le_min_iff, Nat.le_floor_iff (by positivity)]
  exact and_iff_right (Nat.le_sub_one_of_lt hslots)

theorem le_maxSize_doublings_iff (hvalid : lf.isValid = true) (hpos : 0 < start) :
    n ≤ lf.maxSize (start * 2 ^ n) ↔ (n : ℚ) ≤ start * 2 ^ n * lf.value := by
  rw [le_maxSize_iff hvalid (n.lt_two_pow_self.trans_le (Nat.le_mul_of_pos_left _ hpos))]
  push_cast
  rfl

/-- However small the load factor and the first capacity, eight pairs have caught up. -/
theorem le_maxSize_of_eight_le (hvalid : lf.isValid = true) (hpos : 0 < start) (hn : 8 ≤ n) :
    n ≤ lf.maxSize (start * 2 ^ n) := by
  induction n, hn using Nat.le_induction with
  | base =>
    have hleast := ((isValid_iff lf).mp hvalid).2
    have hstart : (1 : ℚ) ≤ start := by exact_mod_cast hpos
    rw [le_maxSize_doublings_iff hvalid hpos]
    calc ((8 : Nat) : ℚ) = 1 * 2 ^ 8 * (1 / 32) := by norm_num
      _ ≤ start * 2 ^ 8 * lf.value := by gcongr
  | succ n hn ih =>
    rw [Nat.pow_succ, ← Nat.mul_assoc, Nat.mul_comm _ 2]
    exact succ_le_maxSize_double (by omega) ih

end LoadFactor

namespace Extent

variable {lf : LoadFactor} {start n : Nat} {e : Extent}

/-- After some new pairs, the count is within the threshold, or every pair has doubled the capacity. -/
structure Counted (lf : LoadFactor) (start n : Nat) (e : Extent) : Prop where
  size_eq : e.size = n
  maxSize_eq : e.maxSize = lf.maxSize e.capacity
  reached : (0 < n ∧ n ≤ e.maxSize ∧ n ≤ lf.maxSize (start * 2 ^ n)) ∨
    (e.capacity = start * 2 ^ n ∧ (n = 0 ∨ e.maxSize < n))

theorem Counted.le_maxSize_iff (h : e.Counted lf start n) : n ≤ e.maxSize ↔ n ≤ lf.maxSize (start * 2 ^ n) := by
  rcases h.reached with ⟨-, hwithin, hdoublings⟩ | ⟨hcapacity, -⟩
  · exact iff_of_true hwithin hdoublings
  · rw [h.maxSize_eq, hcapacity]

theorem counted_start (lf : LoadFactor) (start : Nat) : Counted lf start 0 ⟨0, start, lf.maxSize start⟩ where
  size_eq := rfl
  maxSize_eq := rfl
  reached := Or.inr ⟨(Nat.mul_one start).symm, Or.inl rfl⟩

theorem counted_stored (h : e.Counted lf start n) (hroom : n < e.maxSize ∨ e.capacity < maxCapacity) :
    (e.stored lf).Counted lf start (n + 1) := by
  have hdouble : start * 2 ^ (n + 1) = 2 * (start * 2 ^ n) := by ring
  have hsize := h.size_eq
  rcases Nat.lt_or_ge n e.maxSize with hlt | hfull
  · -- The new pair is within the threshold, and was before only if it is the first or if the count had caught up.
    rw [stored_of_lt (by omega)]
    refine ⟨congrArg (· + 1) hsize, h.maxSize_eq, Or.inl ⟨Nat.succ_pos n, hlt, ?_⟩⟩
    rw [hdouble]
    rcases h.reached with ⟨hpos, -, hdoublings⟩ | ⟨hcapacity, hfirst | hshort⟩
    · exact LoadFactor.succ_le_maxSize_double hpos hdoublings
    · rw [h.maxSize_eq, hcapacity] at hlt
      exact Nat.lt_of_lt_of_le hlt (lf.maxSize_mono (by omega))
    · omega
  · rw [stored_of_le (by omega) (hroom.resolve_left (by omega)), hsize]
    refine ⟨rfl, rfl, ?_⟩
    rw [hdouble]
    rcases h.reached with ⟨hpos, hwithin, hdoublings⟩ | ⟨hcapacity, -⟩
    · rw [h.maxSize_eq] at hwithin
      exact Or.inl ⟨Nat.succ_pos n, LoadFactor.succ_le_maxSize_double hpos hwithin,
        LoadFactor.succ_le_maxSize_double hpos hdoublings⟩
    · rw [hcapacity]
      rcases Nat.lt_or_ge (lf.maxSize (2 * (start * 2 ^ n))) (n + 1) with hshort | hcaught
      · exact Or.inr ⟨rfl, Or.inr hshort⟩
      · exact Or.inl ⟨Nat.succ_pos n, hcaught, hcaught⟩

/-- Unless the table has given up growing, nothing else becomes of its extent. -/
theorem counted_iterate_stored (lf : LoadFactor) (start n : Nat) :
    ((stored lf)^[n] ⟨0, start, lf.maxSize start⟩).Saturated ∨
      ((stored lf)^[n] ⟨0, start, lf.maxSize start⟩).Counted lf start n := by
  induction n with
  | zero => exact Or.inr (counted_start lf start)
  | succ n ih =>
    rw [Function.iterate_succ_apply']
    rcases ih with hsaturated | hcounted
    · exact Or.inl (saturated_stored hsaturated)
    · by_cases hroom : n < ((stored lf)^[n] ⟨0, start, lf.maxSize start⟩).maxSize ∨
          ((stored lf)^[n] ⟨0, start, lf.maxSize start⟩).capacity < maxCapacity
      · exact Or.inr (counted_stored hcounted hroom)
      · have hsize := hcounted.size_eq
        exact Or.inl (saturated_stored_of_le (by omega) (by omega))

end Extent

/-! ### Tables to which pairs are added -/

/-- Whether the operation stores pairs and does nothing else. -/
def MapOp.isInsertion {σ K V : Type} : MapOp σ K V → Bool
  | insert .. | extend _ | getOrInsert _ (some _) => true
  | _ => false

namespace Table

variable {σ K V : Type} [BEq K]

omit [BEq K] in
theorem extent_modifyValueAt (t : Table K V) (loc : Location) (f : V → V) :
    (t.modifyValueAt loc f).extent = t.extent := by
  have hcapacity : (t.modifyValueAt loc f).capacity = t.capacity := Array.size_modify
  rw [extent, hcapacity]
  rfl

theorem exists_extent_insert (t : Table K V) (k : K) (v : V) :
    ∃ n, (t.insert k v).2.extent = (Extent.stored t.loadFactor)^[n] t.extent := by
  rcases hloc : t.locate? k with - | loc
  · exact ⟨1, extent_insert hloc v⟩
  · rw [insert_of_locate?_eq_some hloc]
    exact ⟨0, extent_modifyValueAt t loc _⟩

variable [EquivBEq K]

theorem exists_extent_extend (t : Table K V) (pairs : List (K × V)) :
    ∃ n, (t.extend pairs).extent = (Extent.stored t.loadFactor)^[n] t.extent := by
  induction pairs generalizing t with
  | nil => exact ⟨0, rfl⟩
  | cons p pairs ih =>
    obtain ⟨n, hfirst⟩ := exists_extent_insert t p.1 p.2
    obtain ⟨m, hrest⟩ := ih (t.insert p.1 p.2).2
    rw [(keeps_insert t p.1 p.2).loadFactor, hfirst, ← Function.iterate_add_apply] at hrest
    exact ⟨m + n, hrest⟩

theorem exists_extent_onTable (t : Table K V) {op : MapOp σ K V} (hop : op.isInsertion = true) :
    ∃ n, (op.onTable t).2.extent = (Extent.stored t.loadFactor)^[n] t.extent := by
  cases op with
  | insert k v => exact exists_extent_insert t k v
  | extend pairs => exact exists_extent_extend t pairs
  | getOrInsert k default =>
    cases default with
    | none => exact Bool.noConfusion hop
    | some v =>
      have hresult : ((MapOp.getOrInsert k (some v) : MapOp σ K V).onTable t).2 = (t.getOrInsert k (some v)).2 := by
        rw [MapOp.onTable]
        split <;> rename_i hobtained <;> rw [hobtained]
      rw [hresult]
      rcases hloc : t.locate? k with - | loc
      · exact ⟨1, extent_getOrInsert hloc v⟩
      · rw [getOrInsert, hloc]
        exact ⟨0, rfl⟩
  | _ => exact Bool.noConfusion hop

theorem exists_extent_runTable (t : Table K V) {ops : List (MapOp σ K V)} (hops : ∀ op ∈ ops, op.isInsertion = true) :
    ∃ n, (MapOp.runTable ops t).extent = (Extent.stored t.loadFactor)^[n] t.extent := by
  induction ops generalizing t with
  | nil => exact ⟨0, rfl⟩
  | cons op ops ih =>
    obtain ⟨hop, hops⟩ := List.forall_mem_cons.mp hops
    obtain ⟨n, hfirst⟩ := exists_extent_onTable t hop
    obtain ⟨m, hrest⟩ := ih (op.onTable t).2 hops
    rw [(keeps_onTable op t).loadFactor, hfirst, ← Function.iterate_add_apply] at hrest
    exact ⟨m + n, hrest⟩

/-- A table to which pairs are only added is counted up from its first capacity. -/
theorem counted_runTable (hash : K → UInt64) (config : Config) (id : Nat) {ops : List (MapOp σ K V)}
    (hops : ∀ op ∈ ops, op.isInsertion = true) (hgrows : ¬(MapOp.runTable ops (build hash config id)).Saturated) :
    (MapOp.runTable ops (build hash config id)).extent.Counted config.loadFactor config.slotCapacity
      (MapOp.runTable ops (build hash config id)).size := by
  obtain ⟨n, hextent⟩ := exists_extent_runTable (build hash config id) hops
  have hlf : (build hash config id : Table K V).loadFactor = config.loadFactor := rfl
  rw [extent_build, hlf] at hextent
  have hsize : (MapOp.runTable ops (build hash config id)).size = 0 + n :=
    (congrArg Extent.size hextent).trans (Extent.size_iterate_stored config.loadFactor n _)
  rw [hsize, Nat.zero_add, hextent]
  refine (Extent.counted_iterate_stored _ _ n).resolve_left ?_
  rw [← hextent]
  exact hgrows

end Table

/-! ### Tables rebuilt from few pairs -/

namespace Config

variable {lf : LoadFactor} {count c : Nat}

/-- What is made ready for some pairs has more slots than there are pairs, and less than four for each. -/
theorem bounds_of_fit? (hpos : 0 < count) (h : fit? lf count maxDoublings 1 = some c) :
    ∃ n, c = 2 ^ n ∧ count < c ∧ c < 4 * count := by
  have henough := enoughFor_of_fit? h
  obtain ⟨n, -, hc, hfirst⟩ := exists_of_fit? h
  rw [Nat.one_mul] at hc
  have hslots : 0 < c := hc ▸ Nat.two_pow_pos n
  have hmax := lf.maxSize_lt hslots
  rw [enoughFor_iff] at henough
  refine ⟨n, hc, by omega, ?_⟩
  cases n with
  | zero => omega
  | succ n =>
    have hshort := hfirst n (Nat.lt_succ_self n)
    rw [Nat.one_mul, ← Bool.not_eq_true, enoughFor_iff] at hshort
    rw [Nat.pow_succ] at hc
    omega

/-- For less than four pairs, all that can be made ready. -/
theorem cases_of_fit? (hpos : 0 < count) (hfew : count < 4) (h : fit? lf count maxDoublings 1 = some c) :
    count = 1 ∧ c = 2 ∨ count = 2 ∧ c = 4 ∨ count = 3 ∧ c = 4 ∧ 3 ≤ lf.maxSize 4 ∨ count = 3 ∧ c = 8 := by
  obtain ⟨n, rfl, hmore, hless⟩ := bounds_of_fit? hpos h
  have hn : n < 4 := (Nat.pow_lt_pow_iff_right Nat.one_lt_two).mp (hless.trans (by omega))
  have henough := enoughFor_iff.mp (enoughFor_of_fit? h)
  interval_cases n <;> norm_num at hmore hless henough ⊢
  · omega
  · omega
  · rcases Nat.lt_or_ge count 3 with htwo | hthree
    · omega
    · obtain rfl : count = 3 := by omega
      omega
  · omega

/-- Four pairs or more start with enough slots. -/
theorem le_maxSize_doublings_of_fit? (hvalid : lf.isValid = true) (h : fit? lf count maxDoublings 1 = some c)
    (hcount : 4 ≤ count) : count ≤ lf.maxSize (c * 2 ^ count) := by
  rcases enoughFor_iff.mp (enoughFor_of_fit? h) with hroom | hdouble
  · exact hroom.trans (lf.maxSize_mono (Nat.le_mul_of_pos_right c (Nat.two_pow_pos count)))
  · have hleast := ((LoadFactor.isValid_iff lf).mp hvalid).2
    have hslots : 2 * (count : ℚ) ≤ c := by exact_mod_cast hdouble
    rw [LoadFactor.le_maxSize_doublings_iff hvalid (by omega)]
    calc (count : ℚ) = 2 * count * 2 ^ 4 * (1 / 32) := by ring
      _ ≤ c * 2 ^ count * lf.value := by
        gcongr
        norm_num

/-- From what is made ready, as many doublings as pairs are not enough for these only if there are three pairs or less and the load factor is far below one half. -/
theorem maxSize_doublings_lt_iff (hvalid : lf.isValid = true) (h : fit? lf count maxDoublings 1 = some c) :
    lf.maxSize (c * 2 ^ count) < count ↔
      count = 1 ∧ lf.value < 1 / 4 ∨ count = 2 ∧ lf.value < 1 / 8 ∨ count = 3 ∧ lf.value < 3 / 64 := by
  rcases Nat.eq_zero_or_pos count with rfl | hpos
  · simp
  rcases Nat.lt_or_ge count 4 with hfew | hmany
  · have hclosed (hslots : 0 < c) : count ≤ lf.maxSize (c * 2 ^ count) ↔ (count : ℚ) ≤ c * 2 ^ count * lf.value :=
      LoadFactor.le_maxSize_doublings_iff hvalid hslots
    rw [← Nat.not_le]
    obtain ⟨rfl, rfl⟩ | ⟨rfl, rfl⟩ | ⟨rfl, rfl, hroom⟩ | ⟨rfl, rfl⟩ := cases_of_fit? hpos hfew h
    · rw [hclosed Nat.two_pos]
      norm_num
      constructor <;> intro hsparse <;> linarith
    · rw [hclosed (by decide)]
      norm_num
      constructor <;> intro hsparse <;> linarith
    · -- Three pairs in four slots are within the threshold already.
      have hdoublings := hroom.trans (lf.maxSize_mono (show 4 ≤ 4 * 2 ^ 3 by decide))
      have hdense := (LoadFactor.le_maxSize_iff hvalid (by decide)).mp hroom
      norm_num at hdense
      refine iff_of_false (not_not.mpr hdoublings) ?_
      norm_num
      linarith
    · rw [hclosed (by decide)]
      norm_num
      constructor <;> intro hsparse <;> linarith
  · have hroom := le_maxSize_doublings_of_fit? hvalid h hmany
    omega

end Config

namespace Table

variable {σ K V : Type} [BEq K] [EquivBEq K] {hash : K → UInt64} {config : Config} {id : Nat}

omit [BEq K] [EquivBEq K] in
theorem capacity_build (hash : K → UInt64) (config : Config) (id : Nat) :
    (build hash config id : Table K V).capacity = config.slotCapacity :=
  size_emptySlots _

omit [BEq K] [EquivBEq K] in
theorem not_saturated {t : Table K V} (h : t.capacity < maxCapacity) : ¬t.Saturated :=
  fun hsaturated => Nat.not_le.mpr h hsaturated.1

theorem size_le_maxSize_iff (ops : List (MapOp σ K V)) {t : Table K V} (hops : ∀ op ∈ ops, op.isInsertion = true)
    (ht : MapOp.runTable ops (build hash config id) = t) (hgrows : ¬t.Saturated) :
    t.size ≤ t.maxSize ↔ t.size ≤ config.loadFactor.maxSize (config.slotCapacity * 2 ^ t.size) := by
  obtain rfl := ht
  exact (counted_runTable hash config id hops hgrows).le_maxSize_iff

/-- A table made with a load factor is within its threshold after pairs were added if and only if as many doublings of its first capacity lead to a threshold that great, which eight always do. If it is rebuilt from distinct pairs, it is within its threshold in the end unless these are one, two or three and the load factor is less than one quarter, one eighth or three sixty-fourths. -/
theorem growth_catches_up (hash : K → UInt64) {lf : LoadFactor} (hvalid : lf.isValid = true) (id : Nat) :
    (∀ initialCapacity ≤ maxCapacity, ∃ first : Table K V, create hash ⟨initialCapacity, lf⟩ id = .ok first ∧
      ∀ {ops : List (MapOp σ K V)} {t : Table K V}, (∀ op ∈ ops, op.isInsertion = true) →
        MapOp.runTable ops first = t → ¬t.Saturated →
        (t.size ≤ t.maxSize ↔ (t.size : ℚ) ≤ first.capacity * 2 ^ t.size * lf.value) ∧
        (8 ≤ t.size → t.size ≤ t.maxSize)) ∧
    ∀ {pairs : List (K × V)}, PairMap.Distinct (sameKey hash) pairs →
      ∀ {config : Config}, Config.forPersisted pairs.length lf = .ok config →
        ∃ t : Table K V, ofPersisted hash pairs.length lf pairs id = .ok t ∧ t.size = pairs.length ∧
          (¬t.Saturated → (t.maxSize < t.size ↔ pairs.length = 1 ∧ lf.value < 1 / 4 ∨
            pairs.length = 2 ∧ lf.value < 1 / 8 ∨ pairs.length = 3 ∧ lf.value < 3 / 64)) := by
  constructor
  · intro initialCapacity hcapacity
    have haccepted : Config.validate ⟨initialCapacity, lf⟩ = .ok () := Config.validate_eq_ok_iff.mpr ⟨hvalid, hcapacity⟩
    refine ⟨build hash ⟨initialCapacity, lf⟩ id, by rw [create, haccepted], ?_⟩
    intro ops t hops ht hgrows
    have hpos : 0 < Config.slotCapacity ⟨initialCapacity, lf⟩ :=
      Nat.pos_of_isPowerOfTwo (Nat.isPowerOfTwo_nextPowerOfTwo _)
    have hwithin := size_le_maxSize_iff ops hops ht hgrows
    rw [capacity_build, ← LoadFactor.le_maxSize_doublings_iff hvalid hpos]
    exact ⟨hwithin, fun hmany => hwithin.mpr (LoadFactor.le_maxSize_of_eight_le hvalid hpos hmany)⟩
  · intro pairs hdistinct config hconfig
    obtain ⟨-, c, hfit, rfl⟩ := Config.forPersisted_eq_ok_iff.mp hconfig
    obtain ⟨t, ht⟩ : ∃ t, (build hash ⟨c, lf⟩ id).extend pairs = t := ⟨_, rfl⟩
    have hsize : t.size = pairs.length := by
      rw [← ht, size_extend_build, foldl_insert_empty_of_distinct hdistinct]
      rfl
    refine ⟨t, ofPersisted_eq_ok_iff.mpr ⟨hvalid, ⟨c, hfit, ht.symm⟩, rfl, hsize⟩, hsize, fun hgrows => ?_⟩
    have hwithin := size_le_maxSize_iff (σ := Unit) [.extend pairs] (by simp [MapOp.isInsertion]) ht hgrows
    rw [← capacity_build (V := V) hash ⟨c, lf⟩ id, capacity_build_of_fit? hvalid hfit] at hwithin
    rw [← Config.maxSize_doublings_lt_iff hvalid hfit, ← hsize, ← Nat.not_le, hwithin, Nat.not_le]

/-- At the least load factor, four pairs that are rebuilt, and eight that are stored one after another in a table that had one slot. -/
theorem growth_catches_up_at_least : ∃ (pairs : List (UInt64 × UInt64)) (t u : Table UInt64 UInt64),
    pairs = [(1, 10), (2, 20), (3, 30), (4, 40), (5, 50), (6, 60), (7, 70), (8, 80)] ∧
    ofPersisted (fun _ => 7) 4 .least (pairs.take 4) 0 = .ok t ∧ t.size = 4 ∧ t.size ≤ t.maxSize ∧
    (build (fun _ => 7) ⟨1, .least⟩ 0).extend pairs = u ∧ u.size = 8 ∧ u.size ≤ u.maxSize := by
  obtain ⟨pairs, hpairs⟩ : ∃ pairs : List (UInt64 × UInt64),
    pairs = [(1, 10), (2, 20), (3, 30), (4, 40), (5, 50), (6, 60), (7, 70), (8, 80)] := ⟨_, rfl⟩
  have hvalid : LoadFactor.least.isValid = true := by decide
  have hconfig : Config.forPersisted 4 .least = .ok ⟨8, .least⟩ := by decide +kernel
  obtain ⟨hadded, hrebuilt⟩ := growth_catches_up (σ := Unit) (V := UInt64) (fun _ : UInt64 => 7) hvalid 0
  have hlength : (pairs.take 4).length = 4 := by rw [hpairs]; rfl
  have hdistinct : PairMap.Distinct (sameKey fun _ => 7) (pairs.take 4) := by
    simp [hpairs, PairMap.Distinct, sameKey]
  obtain ⟨t, ht, hsize, hlags⟩ := hrebuilt hdistinct (by rw [hlength]; exact hconfig)
  rw [hlength] at ht hsize hlags
  have hcapacity : (ofPersisted (fun _ => 7) 4 .least (pairs.take 4) 0).toOption.map capacity = some 128 := by
    rw [hpairs]
    decide +kernel
  rw [ht] at hcapacity
  have hrebuiltGrows : ¬t.Saturated := not_saturated (by rw [Option.some.inj hcapacity]; decide)
  obtain ⟨u, hu⟩ : ∃ u, (build (fun _ => 7) ⟨1, .least⟩ 0).extend pairs = u := ⟨_, rfl⟩
  have hsmall : u.size = 8 ∧ u.capacity < maxCapacity := by
    rw [← hu, hpairs]
    decide +kernel
  obtain ⟨first, hfirst, hruns⟩ := hadded 1 (by decide)
  obtain rfl := Except.ok.inj hfirst
  have hops : ∀ op ∈ [(MapOp.extend pairs : MapOp Unit UInt64 UInt64)], op.isInsertion = true := by
    simp [MapOp.isInsertion]
  obtain ⟨-, hmany⟩ := hruns hops hu (not_saturated hsmall.2)
  refine ⟨pairs, t, u, hpairs, ht, hsize, ?_, hu, hsmall.1, hmany hsmall.1.ge⟩
  rw [← Nat.not_lt, hlags hrebuiltGrows]
  simp

/-- One pair at the least load factor: the array is doubled once for it, and the threshold is still zero. -/
theorem ofPersisted_least_lags : LoadFactor.least.isValid = true ∧ Config.validate ⟨8, .least⟩ = .ok () ∧
    (∃ t : Table UInt64 UInt64, ofPersisted (fun _ => 7) 1 .least [(0, 0)] 0 = .ok t ∧
      t.size = 1 ∧ t.capacity = 4 ∧ ¬t.size ≤ t.maxSize) ∧
    ∃ t : Table UInt64 UInt64, create (fun _ => 7) ⟨8, .least⟩ 0 = .ok t ∧
      (t.insert 0 0).2.size = 1 ∧ (t.insert 0 0).2.capacity = 16 ∧ ¬(t.insert 0 0).2.size ≤ (t.insert 0 0).2.maxSize := by
  have hrebuilt : Rebuilt (fun _ => 7) 1 1 .least [((0 : UInt64), (0 : UInt64))] 0
      ((build (fun _ => 7) ⟨2, .least⟩ 0).extend [(0, 0)]) :=
    ⟨by decide, ⟨2, by decide +kernel, rfl⟩, rfl, by decide +kernel⟩
  refine ⟨by decide, by decide, ⟨_, ofPersisted_eq_ok_iff.mpr hrebuilt, ?_⟩, ⟨_, rfl, ?_⟩⟩
  · decide +kernel
  · decide +kernel

end Table

end FlatTable

import FlatTable.Proofs.Decoding
import FlatTable.Proofs.GrowthSteps
import FlatTable.Proofs.Presizing

/-!
# The capacity of rebuilt tables

At a load factor of one half or more the slot array that is made ready for some pairs holds so many of them without growing. A table rebuilt from its parts is made ready for all its pairs and never grows. One that is built while its bytes are read is made ready for two pairs less, because the two elements of the header are taken off a length from which they are already missing, and it grows whenever these two exceed the threshold.
-/

namespace FlatTable

namespace Config

/-- At a load factor of one half or more, what is chosen is the least number of slots that hold the pairs without growing. -/
theorem isLeast_of_half_le {lf : LoadFactor} {count c : Nat} (hvalid : lf.isValid = true) (hhalf : 1 / 2 ≤ lf.value)
    (h : fit? lf count maxDoublings 1 = some c) : IsLeast {c | (∃ n, c = 2 ^ n) ∧ count ≤ lf.maxSize c} c := by
  obtain ⟨⟨⟨n, hn, hc⟩, henough⟩, hleast⟩ := isLeast_of_fit? h
  refine ⟨⟨⟨n, hc⟩, ?_⟩, ?_⟩
  · rcases enoughFor_iff.mp henough with hroom | hdouble
    · exact hroom
    · exact LoadFactor.le_maxSize_of_two_mul_le hvalid hhalf (hc ▸ Nat.two_pow_pos n) hdouble
  · rintro d ⟨⟨m, hd⟩, hroom⟩
    by_cases hm : m ≤ maxDoublings
    · exact hleast ⟨⟨m, hm, hd⟩, enoughFor_iff.mpr (Or.inl hroom)⟩
    · rw [hc, hd]
      exact Nat.pow_le_pow_right Nat.two_pos (by omega)

theorem le_of_fit? {lf : LoadFactor} {count c : Nat} (h : fit? lf count maxDoublings 1 = some c) :
    c ≤ max 1 (4 * count) := by
  obtain ⟨n, -, hc, hfirst⟩ := exists_of_fit? h
  rw [Nat.one_mul] at hc
  cases n with
  | zero => exact hc.le.trans (Nat.le_max_left _ _)
  | succ n =>
    have hshort := hfirst n (Nat.lt_succ_self n)
    rw [Nat.one_mul, ← Bool.not_eq_true, enoughFor_iff] at hshort
    rw [hc, Nat.pow_succ]
    omega

/-- What is made ready is no more than the first power of two from the double of the count on. -/
theorem le_of_isLeast {lf : LoadFactor} {count c p : Nat} (h : fit? lf count maxDoublings 1 = some c)
    (hcount : 2 * count ≤ maxCapacity) (hp : IsLeast {p | (∃ n, p = 2 ^ n) ∧ 2 * count ≤ p} p) : c ≤ p := by
  obtain ⟨⟨⟨n, hn⟩, hdouble⟩, hleast⟩ := hp
  have hlimit : 2 ^ n ≤ 2 ^ maxDoublings := hn ▸ hleast ⟨⟨maxDoublings, rfl⟩, hcount⟩
  exact (isLeast_of_fit? h).2
    ⟨⟨n, (Nat.pow_le_pow_iff_right Nat.one_lt_two).mp hlimit, hn⟩, enoughFor_iff.mpr (Or.inr hdouble)⟩

end Config

variable {K V : Type} [BEq K] [EquivBEq K]

namespace Table

variable {hash : K → UInt64} {ready declared c : Nat} {lf : LoadFactor} {pairs : List (K × V)} {id : Nat} {t : Table K V}

omit [BEq K] [EquivBEq K] in
theorem capacity_build_of_fit? (hvalid : lf.isValid = true) (hfit : Config.fit? lf ready maxDoublings 1 = some c)
    (hash : K → UInt64) (id : Nat) : (build hash ⟨c, lf⟩ id : Table K V).capacity = c :=
  (size_emptySlots _).trans (Config.allocates_of_fit? hvalid hfit).2

namespace Rebuilt

omit [EquivBEq K] in
theorem eq_extend (h : Rebuilt hash ready declared lf pairs id t)
    (hfit : Config.fit? lf ready maxDoublings 1 = some c) : t = (build hash ⟨c, lf⟩ id).extend pairs := by
  obtain ⟨d, hd, hfilled⟩ := h.filled
  rwa [Option.some.inj (hfit.symm.trans hd)]

theorem exists_withId (h : Rebuilt hash ready declared lf pairs id t) (id' : Nat) :
    ∃ u, Rebuilt hash ready declared lf pairs id' u := by
  have hsize := h.size_eq
  obtain ⟨c, hfit, ht⟩ := h.filled
  rw [ht, size_extend_build] at hsize
  exact ⟨_, h.isValid, ⟨c, hfit, rfl⟩, h.length_eq, (size_extend_build hash ⟨c, lf⟩ id' pairs).trans hsize⟩

/-- The capacity follows from that of the array made ready and from the growth steps in the journal. -/
theorem capacity_eq (h : Rebuilt hash ready declared lf pairs id t) (hfit : Config.fit? lf ready maxDoublings 1 = some c)
    (hsmall : t.capacity < maxCapacity) : t.capacity = c * 2 ^ growthSteps (readyForEvents hash ready lf pairs) := by
  -- The journal is kept of a table with another identity, which has the same extent.
  obtain ⟨u, hu⟩ := h.exists_withId 0
  have hextent : u.capacity = t.capacity := congrArg Extent.capacity (h.extent_eq hu)
  have hevents : readyForEvents hash ready lf pairs = (build hash ⟨c, lf⟩ 0 : Table K V).extendEvents pairs := by
    rw [readyForEvents, readyFor_eq_ok_iff.mpr ⟨h.isValid, c, hfit, rfl⟩]
  rw [← hextent, hu.eq_extend hfit] at hsmall ⊢
  rw [capacity_extend hsmall, capacity_build_of_fit? h.isValid hfit, hevents]

section Dense

variable (h : Rebuilt hash ready declared lf pairs id t) (hready : ready ≤ declared) (hcount : declared ≤ 2 ^ 24)
  (hhalf : 1 / 2 ≤ lf.value)
include h hready hcount hhalf

theorem capacity_lt : t.capacity < maxCapacity := by
  have hroom : declared ≤ lf.maxSize (2 ^ 25) :=
    LoadFactor.le_maxSize_of_two_mul_le h.isValid hhalf (Nat.two_pow_pos 25) (by omega)
  exact Nat.lt_of_le_of_lt ((h.isLeast_capacity hready hcount hhalf).1.2 ⟨⟨25, rfl⟩, hroom⟩) (by decide)

/-- In the end the capacity is the one made ready for all pairs at once. -/
theorem capacity_eq_of_declared (hneeded : Config.fit? lf declared maxDoublings 1 = some c) : t.capacity = c :=
  (h.isLeast_capacity hready hcount hhalf).1.unique (Config.isLeast_of_half_le h.isValid hhalf hneeded)

variable (hmade : Config.fit? lf ready maxDoublings 1 = some c)
include hmade

theorem capacity_eq_of_ready : t.capacity = c * 2 ^ growthSteps (readyForEvents hash ready lf pairs) :=
  h.capacity_eq hmade (h.capacity_lt hready hcount hhalf)

/-- So many growth steps are enough as raise the threshold to the count. -/
theorem growthSteps_le {k : Nat} (hroom : declared ≤ lf.maxSize (c * 2 ^ k)) :
    growthSteps (readyForEvents hash ready lf pairs) ≤ k := by
  obtain ⟨n, -, hc, -⟩ := Config.exists_of_fit? hmade
  rw [Nat.one_mul] at hc
  have hpos : 0 < c := hc ▸ Nat.two_pow_pos n
  have hle : t.capacity ≤ c * 2 ^ k :=
    (h.isLeast_capacity hready hcount hhalf).1.2 ⟨⟨n + k, by rw [hc, Nat.pow_add]⟩, hroom⟩
  rw [h.capacity_eq_of_ready hready hcount hhalf hmade] at hle
  exact (Nat.pow_le_pow_iff_right Nat.one_lt_two).mp (Nat.le_of_mul_le_mul_left hle hpos)

/-- There is at most one growth step for each pair that no room was made for. -/
theorem growthSteps_le_sub : growthSteps (readyForEvents hash ready lf pairs) ≤ declared - ready := by
  apply h.growthSteps_le hready hcount hhalf hmade
  obtain ⟨⟨⟨n, hn⟩, hholds⟩, -⟩ := Config.isLeast_of_half_le h.isValid hhalf hmade
  have hroomy := LoadFactor.roomy_of_half_le h.isValid hhalf c
  have hdoublings := hroomy.maxSize_doublings (hn ▸ Nat.two_pow_pos n) (declared - ready)
  omega

/-- A table does not grow while it is filled if the array made ready was large enough. -/
theorem growthSteps_eq_zero_iff : growthSteps (readyForEvents hash ready lf pairs) = 0 ↔ declared ≤ lf.maxSize c := by
  constructor
  · intro hnone
    have hcapacity := h.capacity_eq_of_ready hready hcount hhalf hmade
    rw [hnone, Nat.pow_zero, Nat.mul_one] at hcapacity
    rw [← hcapacity]
    exact (h.isLeast_capacity hready hcount hhalf).1.1.2
  · intro hroom
    apply Nat.eq_zero_of_le_zero
    apply h.growthSteps_le hready hcount hhalf hmade
    rwa [Nat.pow_zero, Nat.mul_one]

end Dense

/-- A table that is made ready for all its pairs has its capacity from the beginning. -/
theorem growthSteps_eq_zero (h : Rebuilt hash declared declared lf pairs id t) (hcount : declared ≤ 2 ^ 24)
    (hhalf : 1 / 2 ≤ lf.value) : growthSteps (readyForEvents hash declared lf pairs) = 0 := by
  obtain ⟨c, hfit, -⟩ := h.filled
  have hsteps := h.growthSteps_le_sub (Nat.le_refl _) hcount hhalf hfit
  omega

/-- However small the load factor, there are at most sixty-four slots for each pair. -/
theorem capacity_le (h : Rebuilt hash ready declared lf pairs id t) (hready : ready ≤ declared)
    (hcount : declared ≤ 2 ^ 24) : t.capacity ≤ max 1 (64 * declared) := by
  obtain ⟨n, -, hfit, hextent⟩ := h.exists_extent
  have hfits := Extent.fits_iterate_stored h.isValid (Nat.two_pow_pos n) hcount
  rw [← hextent] at hfits
  have hcapacity : t.capacity ≤ max (2 ^ n) (64 * declared) := hfits.capacity_le h.isValid
  have hmade := Config.le_of_fit? hfit
  omega

end Rebuilt

omit [EquivBEq K] in
theorem readFromEvents_eq [BinaryCodec K] [BinaryCodec V] {input : List UInt8} {elements : Nat}
    (h : decodeForm .persistedTable input = .ok (elements, ⟨pairs.length, lf, pairs, none, none⟩)) :
    readFromEvents (V := V) hash input =
      .readForm pairs.length pairs.length :: readyForEvents hash pairs.length lf pairs := by
  rw [readFromEvents, h]
  simp

omit [EquivBEq K] in
theorem decodeEvents_eq [BinaryCodec K] [BinaryCodec V] {input : List UInt8} {elements declared : Nat}
    (h : decodeForm .parts input = .ok (elements, ⟨declared, lf, pairs, none, none⟩)) :
    decodeEvents (V := V) hash input =
      readyForEvents hash (presize declared (hintAfterHeader elements)) lf pairs := by
  rw [decodeEvents, h]
  rfl

/-- Pairs with distinct keys are rebuilt to a table. At a load factor of one half or more its slot array is made ready at the least capacity that holds them, and it never grows. At a smaller one the array made ready has at most the slots that twice the pairs ask for, and growth leads to at most sixty-four slots for each pair. -/
theorem ofPersisted_fits (hash : K → UInt64) (hvalid : lf.isValid = true) (hcount : pairs.length ≤ 2 ^ 24)
    (hdistinct : PairMap.Distinct (sameKey hash) pairs) (id : Nat) :
    ∃ first t : Table K V, readyFor hash pairs.length lf id = .ok first ∧
      ofPersisted hash pairs.length lf pairs id = .ok t ∧ t = first.extend pairs ∧
      (∀ p, IsLeast {p | (∃ n, p = 2 ^ n) ∧ 2 * pairs.length ≤ p} p → first.capacity ≤ p) ∧
      t.capacity ≤ max 1 (64 * pairs.length) ∧
      (1 / 2 ≤ lf.value → growthSteps (readyForEvents hash pairs.length lf pairs) = 0 ∧ t.capacity = first.capacity ∧
        IsLeast {c : Nat | (∃ n, c = 2 ^ n) ∧ pairs.length ≤ min (c - 1) ⌊(c : ℚ) * lf.value⌋₊} t.capacity) ∧
      ∀ [BinaryCodec K] [BinaryCodec V] {input : List UInt8} {elements : Nat},
        decodeForm .persistedTable input = .ok (elements, ⟨pairs.length, lf, pairs, none, none⟩) →
          readFrom hash input id = .ok t ∧
          (1 / 2 ≤ lf.value → growthSteps (readFromEvents (V := V) hash input) = 0) := by
  have hroom := two_mul_le_maxCapacity hcount
  obtain ⟨c, hfit, hready⟩ := exists_readyFor (V := V) hvalid hroom hash id
  obtain ⟨t, ht⟩ := exists_rebuilt hvalid hroom hdistinct id
  have hmade := capacity_build_of_fit? (V := V) hvalid hfit hash id
  refine ⟨build hash ⟨c, lf⟩ id, t, hready, ofPersisted_eq_ok_iff.mpr ht, ht.eq_extend hfit, ?_,
    ht.capacity_le (Nat.le_refl _) hcount, ?_, ?_⟩
  · intro p hp
    rw [hmade]
    exact Config.le_of_isLeast hfit hroom hp
  · intro hhalf
    obtain ⟨hleast, -⟩ := ht.isLeast_capacity (Nat.le_refl _) hcount hhalf
    refine ⟨ht.growthSteps_eq_zero hcount hhalf, ?_, ?_⟩
    · rw [hmade]
      exact ht.capacity_eq_of_declared (Nat.le_refl _) hcount hhalf hfit
    · simp only [← LoadFactor.maxSize_eq_floor hvalid]
      exact hleast
  · intro _ _ input elements hform
    refine ⟨(readFrom_eq_ok_iff hform).mpr ht, fun hhalf => ?_⟩
    rw [readFromEvents_eq hform, growthSteps_cons, ht.growthSteps_eq_zero hcount hhalf]
    rfl

/-- As many pairs as eight slots hold, under keys that collide. -/
theorem ofPersisted_fits_at_threshold : ∃ pairs : List (UInt64 × UInt64),
    pairs = [(1, 10), (2, 20), (3, 30), (4, 40), (5, 50), (6, 60)] ∧ LoadFactor.standard.isValid = true ∧
    PairMap.Distinct (sameKey fun _ => 7) pairs ∧ ∃ first t : Table UInt64 UInt64,
      readyFor (fun _ => 7) pairs.length .standard 0 = .ok first ∧
      ofPersisted (fun _ => 7) pairs.length .standard pairs 0 = .ok t ∧ t.capacity = first.capacity ∧
      growthSteps (readyForEvents (fun _ => 7) pairs.length .standard pairs) = 0 := by
  obtain ⟨pairs, hpairs⟩ : ∃ pairs : List (UInt64 × UInt64),
    pairs = [(1, 10), (2, 20), (3, 30), (4, 40), (5, 50), (6, 60)] := ⟨_, rfl⟩
  have hvalid : LoadFactor.standard.isValid = true := by decide
  have hcount : pairs.length ≤ 2 ^ 24 := by
    rw [hpairs]
    decide
  have hdistinct : PairMap.Distinct (sameKey fun _ => 7) pairs := by simp [hpairs, PairMap.Distinct, sameKey]
  obtain ⟨first, t, hready, hbuilt, -, -, -, hdense, -⟩ := ofPersisted_fits (fun _ => 7) hvalid hcount hdistinct 0
  obtain ⟨hsteps, hcapacity, -⟩ := hdense LoadFactor.half_le_standard
  exact ⟨pairs, hpairs, hvalid, hdistinct, first, t, hready, hbuilt, hcapacity, hsteps⟩

/-! ### Building while bytes are read -/

section Streaming

variable [BinaryCodec K] [BinaryCodec V]

/-- A table that is built while its bytes are read is made ready for two pairs less than it has. It grows if these two do not fit, and then by so many doublings as lead to the capacity that is made ready at once for all its pairs. -/
theorem decode_encode_presizes {t : Table K V} (ht : t.Reachable) (hhalf : 1 / 2 ≤ t.loadFactor.value)
    (hcount : t.size ≤ 2 ^ 24) (hequal : ∀ a b, (a == b) = true → t.hash a = t.hash b)
    (hcodec : ∀ p ∈ t.toList, Decodes p.1 ∧ Decodes p.2) (hash : K → UInt64) (rest : List UInt8) (id : Nat) :
    ∃ (made needed : Nat) (first u : Table K V),
      Config.forPersisted (t.size - 2) t.loadFactor = .ok ⟨made, t.loadFactor⟩ ∧
      Config.forPersisted t.size t.loadFactor = .ok ⟨needed, t.loadFactor⟩ ∧
      readyFor hash (presize t.size (hintAfterHeader (t.size + 2))) t.loadFactor id = .ok first ∧
      first.capacity = made ∧ decode hash (t.encode ++ rest) id = .ok u ∧ u = first.extend t.toList ∧
      u.capacity = needed ∧ needed = made * 2 ^ growthSteps (decodeEvents (V := V) hash (t.encode ++ rest)) ∧
      growthSteps (decodeEvents (V := V) hash (t.encode ++ rest)) ≤ 2 ∧
      (growthSteps (decodeEvents (V := V) hash (t.encode ++ rest)) = 0 ↔ t.size ≤ t.loadFactor.maxSize made) ∧
      growthSteps (readFromEvents (V := V) hash (t.encode ++ rest)) = 0 := by
  have hsound := sound_of_reachable ht
  have hvalid := hsound.loadFactor_isValid
  have hlength := hsound.layout.length_toList
  have hform := fun expected => decodeForm_encode expected hlength (by omega) hcodec rest
  have hready : presize t.size (hintAfterHeader (t.size + 2)) = t.size - 2 := by
    show min t.size (t.size + 2 - 2 - 2) = t.size - 2
    omega
  have hless : t.size - 2 ≤ t.size := Nat.sub_le _ _
  obtain ⟨made, hmade, hfirst⟩ := exists_readyFor (V := V) hvalid (two_mul_le_maxCapacity (hless.trans hcount)) hash id
  obtain ⟨needed, hneeded, -⟩ := exists_readyFor (V := V) hvalid (two_mul_le_maxCapacity hcount) hash id
  obtain ⟨u, hu⟩ := exists_rebuilt_toList ht hcount hequal hash hless id
  obtain ⟨w, hw⟩ := exists_rebuilt_toList ht hcount hequal hash (Nat.le_refl t.size) id
  have hsteps := hu.growthSteps_le_sub hless hcount hhalf hmade
  have hcapacity := hu.capacity_eq_of_declared hless hcount hhalf hneeded
  have hdoublings := hu.capacity_eq_of_ready hless hcount hhalf hmade
  rw [hcapacity] at hdoublings
  rw [decodeEvents_eq (hform .parts), hready]
  refine ⟨made, needed, build hash ⟨made, t.loadFactor⟩ id, u,
    Config.forPersisted_eq_ok_iff.mpr ⟨hvalid, made, hmade, rfl⟩,
    Config.forPersisted_eq_ok_iff.mpr ⟨hvalid, needed, hneeded, rfl⟩, hfirst, capacity_build_of_fit? hvalid hmade hash id,
    ?_, hu.eq_extend hmade, hcapacity, hdoublings, by omega, hu.growthSteps_eq_zero_iff hless hcount hhalf hmade, ?_⟩
  · rw [decode_eq_build (hform .parts), build_eq_ok_iff, hready]
    exact hu
  · have hparts := hform .persistedTable
    rw [← hlength] at hparts
    rw [readFromEvents_eq hparts, growthSteps_cons, hlength, hw.growthSteps_eq_zero hcount hhalf]
    rfl

end Streaming

/-- Two pairs, for which no room at all is made and the array is doubled twice, with bytes that follow. -/
theorem decode_encode_presizes_two_pairs : ∃ t : Table UInt64 UInt64,
    t = (build (fun _ => 7) .standard 0).extend [(1, 10), (2, 20)] ∧ t.Reachable ∧
    1 / 2 ≤ t.loadFactor.value ∧ ∃ u : Table UInt64 UInt64,
      decode (fun k => k) (t.encode ++ [0xff]) 1 = .ok u ∧ u.capacity = 4 ∧
      growthSteps (decodeEvents (V := UInt64) (fun k : UInt64 => k) (t.encode ++ [0xff])) = 2 ∧
      growthSteps (readFromEvents (V := UInt64) (fun k : UInt64 => k) (t.encode ++ [0xff])) = 0 := by
  obtain ⟨t, ht⟩ : ∃ t : Table UInt64 UInt64, t = (build (fun _ => 7) .standard 0).extend [(1, 10), (2, 20)] := ⟨_, rfl⟩
  have hreachable : t.Reachable := ht ▸ .made (.collect _ _ _)
  have hsize : t.size = 2 := by
    rw [ht]
    decide +kernel
  have hlf : t.loadFactor = .standard := by
    rw [ht, (keeps_extend _ _).loadFactor]
    rfl
  have hhalf : 1 / 2 ≤ t.loadFactor.value := hlf ▸ LoadFactor.half_le_standard
  have hequal : ∀ a b, (a == b) = true → t.hash a = t.hash b := by
    rw [ht, (keeps_extend _ _).hash]
    exact fun _ _ _ => rfl
  obtain ⟨made, needed, first, u, hmade, hneeded, -, -, hu, -, hcapacity, hdoublings, -, -, hread⟩ :=
    decode_encode_presizes hreachable hhalf (by rw [hsize]; decide) hequal
      (fun p _ => ⟨decodes_word p.1, decodes_word p.2⟩) (fun k => k) [0xff] 1
  have hone : Config.forPersisted (2 - 2) .standard = .ok ⟨1, .standard⟩ := by decide +kernel
  have hfour : Config.forPersisted 2 .standard = .ok ⟨4, .standard⟩ := by decide +kernel
  rw [hsize, hlf] at hmade hneeded
  obtain rfl : 1 = made := congrArg Config.initialCapacity (Except.ok.inj (hone.symm.trans hmade))
  obtain rfl : 4 = needed := congrArg Config.initialCapacity (Except.ok.inj (hfour.symm.trans hneeded))
  rw [Nat.one_mul] at hdoublings
  have hsteps : growthSteps (decodeEvents (V := UInt64) (fun k : UInt64 => k) (t.encode ++ [0xff])) = 2 :=
    Nat.pow_right_injective (Nat.le_refl 2) hdoublings.symm
  exact ⟨t, ht, hreachable, hhalf, u, hu, hcapacity, hsteps, hread⟩

/-- Seven pairs have room in sixteen slots and not in eight, but only eight are made when their bytes are read one by one. -/
theorem decode_encode_grows_at_threshold : ∃ t : Table UInt64 UInt64, t.Reachable ∧ 1 / 2 ≤ t.loadFactor.value ∧
    t.size = 7 ∧ Config.forPersisted t.size t.loadFactor = .ok ⟨16, t.loadFactor⟩ ∧
    Event.grew 8 7 ∈ decodeEvents (V := UInt64) (fun k : UInt64 => k) t.encode ∧
    growthSteps (decodeEvents (V := UInt64) (fun k : UInt64 => k) t.encode) = 1 ∧
    growthSteps (readFromEvents (V := UInt64) (fun k : UInt64 => k) t.encode) = 0 := by
  obtain ⟨t, ht⟩ : ∃ t : Table UInt64 UInt64, t = (build (fun k => k) .standard 0).extend
    [(0, 0), (1, 2), (2, 4), (3, 6), (4, 8), (5, 10), (6, 12)] := ⟨_, rfl⟩
  have hsize : t.size = 7 := by
    rw [ht]
    decide +kernel
  have hlf : t.loadFactor = .standard := by
    rw [ht, (keeps_extend _ _).loadFactor]
    rfl
  refine ⟨t, ht ▸ .made (.collect _ _ _), hlf ▸ LoadFactor.half_le_standard, hsize, ?_, ?_, ?_, ?_⟩
  · rw [hsize, hlf]
    decide +kernel
  all_goals
    rw [ht]
    decide +kernel

end Table

end FlatTable

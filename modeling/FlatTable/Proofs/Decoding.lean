import FlatTable.Proofs.RoundTrip

/-!
# Decoders

A header and pairs are decoded in several ways: from their parts, from bytes whose pairs are all read first, and while bytes or text are being read, by which time the format may or may not have told how many elements come. All accept the same forms, and what they make of one differs at most in its capacity.
-/

namespace FlatTable

variable {K V : Type}

theorem toOption_eq_some_iff {ε α : Type} {x : Except ε α} {a : α} : x.toOption = some a ↔ x = .ok a := by
  cases x <;> simp [Except.toOption]

namespace Table

variable [BEq K]

/-- The outcomes of decoding a header and pairs, by whatever decoder and with whatever hint. -/
inductive Decoding (hash : K → UInt64) (declared : Nat) (lf : LoadFactor) (pairs : List (K × V)) :
    Option (Table K V) → Prop
  | streamed {ε : Type} (refused : TableError → ε) (hint : Option Nat) (id : Nat) :
      Decoding hash declared lf pairs
        ((⟨declared, lf, pairs, none, none⟩ : Form K V ε).build refused hash hint id).toOption
  | parts (id : Nat) : Decoding hash declared lf pairs (ofPersisted hash declared lf pairs id).toOption
  | bytes [BinaryCodec K] [BinaryCodec V] {input : List UInt8} {elements : Nat}
      (h : decodeForm .persistedTable input = .ok (elements, ⟨declared, lf, pairs, none, none⟩)) (id : Nat) :
      Decoding hash declared lf pairs (readFrom hash input id).toOption
  | streamedBytes [BinaryCodec K] [BinaryCodec V] {input : List UInt8} {elements : Nat}
      (h : decodeForm .parts input = .ok (elements, ⟨declared, lf, pairs, none, none⟩)) (id : Nat) :
      Decoding hash declared lf pairs (decode hash input id).toOption
  | text [JsonCodec K] [JsonCodec V] {text : String}
      (h : Json.tableForm text = .ok ⟨declared, lf, pairs, none, none⟩) (id : Nat) :
      Decoding hash declared lf pairs (ofText hash text id).toOption

variable {hash : K → UInt64} {declared : Nat} {lf : LoadFactor} {pairs : List (K × V)}

theorem readFrom_eq [BinaryCodec K] [BinaryCodec V] {input : List UInt8} {elements : Nat}
    (h : decodeForm .persistedTable input = .ok (elements, ⟨declared, lf, pairs, none, none⟩)) (id : Nat) :
    readFrom hash input id = if pairs.length ≠ declared then
      .error (.table (.corruptPersistedForm declared pairs.length))
      else (ofPersisted hash declared lf pairs id).mapError .table := by
  rw [readFrom, h]
  rfl

/-- Bytes from which a whole form was read give what the parts give, once the pairs are as many as declared. -/
theorem readFrom_eq_ok_iff [BinaryCodec K] [BinaryCodec V] {input : List UInt8} {elements id : Nat} {t : Table K V}
    (h : decodeForm .persistedTable input = .ok (elements, ⟨declared, lf, pairs, none, none⟩)) :
    readFrom hash input id = .ok t ↔ Rebuilt hash declared declared lf pairs id t := by
  rw [readFrom_eq h]
  split
  · rename_i hlength
    constructor
    · intro h
      cases h
    · intro h
      exact absurd h.length_eq hlength
  · rw [mapError_eq_ok_iff, ofPersisted_eq_ok_iff]

theorem decode_eq_build [BinaryCodec K] [BinaryCodec V] {input : List UInt8} {elements : Nat}
    {form : Form K V CodecError} (h : decodeForm .parts input = .ok (elements, form)) (id : Nat) :
    decode hash input id = form.build .refused hash (hintAfterHeader elements) id := by
  rw [decode, h]
  rfl

theorem ofText_eq_build [JsonCodec K] [JsonCodec V] {text : String} {form : Form K V JsonError}
    (h : Json.tableForm text = .ok form) (id : Nat) :
    ofText hash text id = form.build (fun e => .unsuited (.refused e)) hash none id := by
  rw [ofText, h]
  rfl

/-- Every decoder makes the slot array ready for at most the declared number of pairs. -/
theorem exists_rebuilt_of_decoding {outcome : Option (Table K V)} (h : Decoding hash declared lf pairs outcome) :
    ∃ ready ≤ declared, ∃ id, ∀ t, outcome = some t ↔ Rebuilt hash ready declared lf pairs id t := by
  have hstreamed {ε : Type} (refused : TableError → ε) (hint : Option Nat) (id : Nat) :
      ∃ ready ≤ declared, ∃ id', ∀ t,
        ((⟨declared, lf, pairs, none, none⟩ : Form K V ε).build refused hash hint id).toOption = some t ↔
          Rebuilt hash ready declared lf pairs id' t :=
    ⟨presize declared hint, Nat.min_le_left _ _, id, fun t => toOption_eq_some_iff.trans build_eq_ok_iff⟩
  cases h with
  | streamed refused hint id => exact hstreamed refused hint id
  | parts id =>
    exact ⟨declared, Nat.le_refl _, id, fun t => toOption_eq_some_iff.trans ofPersisted_eq_ok_iff⟩
  | bytes h id =>
    exact ⟨declared, Nat.le_refl _, id, fun t => toOption_eq_some_iff.trans (readFrom_eq_ok_iff h)⟩
  | streamedBytes h id =>
    rw [decode_eq_build h]
    exact hstreamed _ _ id
  | text h id =>
    rw [ofText_eq_build h]
    exact hstreamed _ _ id

variable [EquivBEq K]

/-- A decoder accepts a form whose pairs are as many as declared and have distinct keys. -/
theorem isSome_of_decoding {outcome : Option (Table K V)} (h : Decoding hash declared lf pairs outcome)
    (hcount : pairs.length ≤ 2 ^ 24) : outcome.isSome = true ↔
      pairs.length = declared ∧ lf.isValid = true ∧ PairMap.Distinct (sameKey hash) pairs := by
  obtain ⟨ready, hready, id, hrebuilt⟩ := exists_rebuilt_of_decoding h
  rw [Option.isSome_iff_exists]
  constructor
  · rintro ⟨t, ht⟩
    have ht := (hrebuilt t).mp ht
    exact ⟨ht.length_eq, ht.isValid, ht.distinct⟩
  · rintro ⟨rfl, hvalid, hdistinct⟩
    have hroom : 2 * ready ≤ maxCapacity := two_mul_le_maxCapacity (hready.trans hcount)
    obtain ⟨t, ht⟩ := exists_rebuilt hvalid hroom hdistinct id
    exact ⟨t, (hrebuilt t).mpr ht⟩

/-- All decoders accept the same forms: those whose load factor is valid and whose pairs are as many as declared and have distinct keys. What they make of a form holds the same pairs, and at a load factor of one half or more it is the same slot for slot. -/
theorem decoders_agree (hash : K → UInt64) (declared : Nat) (lf : LoadFactor) {pairs : List (K × V)}
    (hcount : pairs.length ≤ 2 ^ 24) :
    (∀ {outcome}, Decoding hash declared lf pairs outcome → (outcome.isSome = true ↔
      pairs.length = declared ∧ lf.isValid = true ∧ PairMap.Distinct (sameKey hash) pairs)) ∧
    ((∀ a b, (a == b) = true → hash a = hash b) →
      (PairMap.Distinct (sameKey hash) pairs ↔ pairs.Pairwise fun p q => (p.1 == q.1) = false)) ∧
    ∀ {t u}, Decoding hash declared lf pairs (some t) → Decoding hash declared lf pairs (some u) →
      t.toList.Perm pairs ∧ u.toList.Perm t.toList ∧
      (1 / 2 ≤ lf.value → u.slots = t.slots ∧ u.capacity = t.capacity ∧ u.maxSize = t.maxSize ∧ u.toList = t.toList) := by
  refine ⟨fun h => isSome_of_decoding h hcount, fun hequal => by rw [sameKey_eq_beq hequal, PairMap.Distinct], ?_⟩
  intro t u ht hu
  obtain ⟨ready, hready, id, ht⟩ := exists_rebuilt_of_decoding ht
  obtain ⟨ready', hready', id', hu⟩ := exists_rebuilt_of_decoding hu
  have ht := (ht t).mp rfl
  have hu := (hu u).mp rfl
  have hpermt := ht.inOrder.models.perm
  have hpermu := hu.inOrder.models.perm
  refine ⟨hpermt, hpermu.trans hpermt.symm, fun hhalf => ?_⟩
  have hdeclared : declared ≤ 2 ^ 24 := ht.length_eq ▸ hcount
  obtain ⟨hleast, hmax⟩ := ht.isLeast_capacity hready hdeclared hhalf
  obtain ⟨hleast', hmax'⟩ := hu.isLeast_capacity hready' hdeclared hhalf
  have hcapacity : u.capacity = t.capacity := hleast'.unique hleast
  have hslots := ht.inOrder.slots_eq_slots hu.inOrder (hu.hash_eq.trans ht.hash_eq.symm) hcapacity
  exact ⟨hslots, hcapacity, by rw [hmax', hmax, hcapacity], toList_of_slots hslots⟩

/-- A hint that is too small, so that the table grows while it is filled, and bytes. -/
theorem decoders_agree_short_hint : ∃ first t u w : Table UInt64 UInt64,
    first = (build (fun _ => 7) .standard 0).extend [(1, 10), (2, 20), (3, 30)] ∧
    ofPersisted (fun _ => 7) 3 .standard [(1, 10), (2, 20), (3, 30)] 1 = .ok t ∧
    (⟨3, .standard, [(1, 10), (2, 20), (3, 30)], none, none⟩ : Form UInt64 UInt64 TableError).build (fun e => e)
      (fun _ => 7) (some 3) 2 = .ok u ∧
    readFrom (fun _ => 7) first.encode 3 = .ok w ∧ u.slots = t.slots ∧ w.slots = t.slots := by
  obtain ⟨first, hfirst⟩ : ∃ first : Table UInt64 UInt64,
    first = (build (fun _ => 7) .standard 0).extend [(1, 10), (2, 20), (3, 30)] := ⟨_, rfl⟩
  have hpairs : first.toList = [(1, 10), (2, 20), (3, 30)] := by
    rw [hfirst]
    decide +kernel
  have hsize : first.size = 3 := by
    rw [hfirst]
    decide +kernel
  have hlf : first.loadFactor = .standard := by
    rw [hfirst, (keeps_extend _ _).loadFactor]
    rfl
  have hform := decodeForm_encode .persistedTable (t := first) (by rw [hsize, hpairs]; rfl) (by rw [hsize]; decide)
    (fun p _ => ⟨decodes_word p.1, decodes_word p.2⟩) []
  rw [List.append_nil, hsize, hpairs, hlf] at hform
  obtain ⟨pairs, hgiven⟩ : ∃ pairs : List (UInt64 × UInt64), pairs = [(1, 10), (2, 20), (3, 30)] := ⟨_, rfl⟩
  rw [← hgiven] at hfirst hform ⊢
  have hcount : pairs.length ≤ 2 ^ 24 := by
    rw [hgiven]
    decide
  obtain ⟨haccepts, -, hsame⟩ := decoders_agree (fun _ : UInt64 => 7) 3 .standard hcount
  have haccepted {outcome} (h : Decoding (fun _ : UInt64 => 7) 3 .standard pairs outcome) : ∃ t, outcome = some t := by
    have hdistinct : PairMap.Distinct (sameKey fun _ => 7) pairs := by simp [hgiven, PairMap.Distinct, sameKey]
    exact Option.isSome_iff_exists.mp ((haccepts h).mpr ⟨by rw [hgiven]; rfl, by decide, hdistinct⟩)
  have hparts : Decoding (fun _ : UInt64 => 7) 3 .standard pairs _ := .parts 1
  have hstreamed : Decoding (fun _ : UInt64 => 7) 3 .standard pairs _ := .streamed (fun e : TableError => e) (some 3) 2
  have hbytes : Decoding (fun _ : UInt64 => 7) 3 .standard pairs _ := .bytes hform 3
  obtain ⟨t, ht⟩ := haccepted hparts
  obtain ⟨u, hu⟩ := haccepted hstreamed
  obtain ⟨w, hw⟩ := haccepted hbytes
  refine ⟨first, t, u, w, hfirst, toOption_eq_some_iff.mp ht, toOption_eq_some_iff.mp hu, toOption_eq_some_iff.mp hw, ?_⟩
  rw [ht] at hparts
  rw [hu] at hstreamed
  rw [hw] at hbytes
  exact ⟨((hsame hparts hstreamed).2.2 LoadFactor.half_le_standard).1,
    ((hsame hparts hbytes).2.2 LoadFactor.half_le_standard).1⟩

/-! ### Decoding what was encoded -/

omit [EquivBEq K] in
theorem readFrom_encode_eq_ok_iff [BinaryCodec K] [BinaryCodec V] {t u : Table K V} {id : Nat} (ht : t.LayoutInvariant)
    (hcount : t.size ≤ 2 ^ 24) (hcodec : ∀ p ∈ t.toList, Decodes p.1 ∧ Decodes p.2) :
    readFrom hash t.encode id = .ok u ↔ Rebuilt hash t.size t.size t.loadFactor t.toList id u := by
  have hlength := ht.length_toList
  have hform := decodeForm_encode .persistedTable hlength (by omega) hcodec []
  rw [List.append_nil] at hform
  exact readFrom_eq_ok_iff hform

/-- One round trip through bytes leads to a layout that the next one gives back: the capacity follows from the count and the load factor, and each slot is filled again in its own order. -/
theorem readFrom_normalises [BinaryCodec K] [BinaryCodec V] {t : Table K V} (ht : t.Reachable) (hcount : t.size ≤ 2 ^ 24)
    (hequal : ∀ a b, (a == b) = true → t.hash a = t.hash b) (hcodec : ∀ p ∈ t.toList, Decodes p.1 ∧ Decodes p.2)
    (hash : K → UInt64) (id id' : Nat) :
    ∃ u w : Table K V, readFrom hash t.encode id = .ok u ∧ readFrom hash u.encode id' = .ok w ∧
      u.toList.Perm t.toList ∧ w.slots = u.slots ∧ w.capacity = u.capacity ∧ w.maxSize = u.maxSize ∧
      w.toList = u.toList ∧ w.encode = u.encode := by
  have hsound := sound_of_reachable ht
  have hlength : t.toList.length = t.size := (size_eq_of_models (models_toList hsound.layout)).symm
  have hmax : maxCapacity = 2 ^ 30 := by decide
  have hroom : 2 * t.size ≤ maxCapacity := by omega
  obtain ⟨u, hu⟩ := exists_rebuilt hsound.loadFactor_isValid hroom (distinct_of_rehash hsound.layout hequal hash) id
  rw [hlength] at hu
  have hlayout := hu.inOrder.layout
  have hperm := hu.inOrder.models.perm
  have hdistinct : PairMap.Distinct (sameKey hash) u.toList := hu.hash_eq ▸ distinct_toList hlayout
  obtain ⟨w, hw⟩ := exists_rebuilt hu.isValid hroom hdistinct id'
  rw [hperm.length_eq, hlength] at hw
  have hreadw : readFrom hash u.encode id' = .ok w := by
    rw [readFrom_encode_eq_ok_iff hlayout (hu.size_eq ▸ hcount) fun p hp => hcodec p (hperm.mem_iff.mp hp), hu.size_eq,
      hu.loadFactor_eq]
    exact hw
  -- Both were made ready for the same count, so they went through the same doublings.
  have hextent := hu.extent_eq hw
  have hcapacity : w.capacity = u.capacity := congrArg Extent.capacity hextent
  have hslots := hu.inOrder.toList.slots_eq_slots hw.inOrder (hw.hash_eq.trans hu.hash_eq.symm) hcapacity
  have htoList := toList_of_slots hslots
  refine ⟨u, w, (readFrom_encode_eq_ok_iff hsound.layout hcount hcodec).mpr hu, hreadw, hperm, hslots, hcapacity,
    congrArg Extent.maxSize hextent, htoList, ?_⟩
  rw [encode, encode, hw.size_eq, hu.size_eq, hw.loadFactor_eq, hu.loadFactor_eq, htoList]

/-- A chain out of order after a removal, at the least load factor, under keys that collide before and not after. -/
theorem readFrom_normalises_after_removal : ∃ t u w : Table UInt64 Double,
    t.toList = [(3, ⟨0x7ff8000000000000⟩), (2, ⟨0x3ff0000000000000⟩)] ∧
    readFrom (fun k => k) t.encode 1 = .ok u ∧ readFrom (fun k => k) u.encode 2 = .ok w ∧
      u.toList.Perm t.toList ∧ w.slots = u.slots ∧ w.capacity = u.capacity ∧ w.maxSize = u.maxSize ∧
      w.toList = u.toList ∧ w.encode = u.encode := by
  obtain ⟨t, ht⟩ : ∃ t : Table UInt64 Double, t = (((build (fun _ => 7) ⟨1, .least⟩ 0).extend
      [(1, ⟨0⟩), (2, ⟨0x3ff0000000000000⟩), (3, ⟨0x7ff8000000000000⟩)]).remove 1).2 := ⟨_, rfl⟩
  have hcreate : create (fun _ => 7) ⟨1, .least⟩ 0 = .ok (build (fun _ => 7) ⟨1, .least⟩ 0 : Table UInt64 Double) := rfl
  have hreachable : t.Reachable := ht ▸ ((Reachable.made (.create hcreate)).step (.extend _)).step (.remove 1)
  have hpairs : t.toList = [(3, ⟨0x7ff8000000000000⟩), (2, ⟨0x3ff0000000000000⟩)] := by
    rw [ht]
    decide +kernel
  have hsize : t.size = 2 := by
    rw [ht]
    decide +kernel
  have hequal : ∀ a b, (a == b) = true → t.hash a = t.hash b := by
    rw [ht, (keeps_remove _ _).hash, (keeps_extend _ _).hash]
    exact fun _ _ _ => rfl
  obtain ⟨u, w, huw⟩ := readFrom_normalises hreachable (by rw [hsize]; decide) hequal
    (fun p _ => ⟨decodes_word p.1, decodes_double p.2⟩) (fun k => k) 1 2
  exact ⟨t, u, w, hpairs, huw⟩

end Table

end FlatTable

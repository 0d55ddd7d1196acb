import FlatTable.Proofs.Decoding
import FlatTable.Proofs.InsertionOnly

/-!
# What reading accepts

Bytes are read as a sequence whose length comes first. Three counts have a say in what becomes of them: that length, the declared number of pairs, and the number of distinct keys that the table is left with. They are compared in this order, the load factor being looked at between the first comparison and the second.
-/

namespace FlatTable

variable {K V : Type}

/-! ### Counting keys -/

/-- The number of keys that a table with this hash function tells apart. -/
def distinctKeys [BEq K] (hash : K → UInt64) (pairs : List (K × V)) : Nat :=
  ((pairs.map Prod.fst).eraseDupsBy (sameKey hash)).length

namespace Table

variable [BEq K] {hash : K → UInt64} {lf : LoadFactor} {pairs : List (K × V)} {id : Nat}

theorem size_eq_distinctKeys [EquivBEq K] (hash : K → UInt64) (config : Config) (id : Nat) (pairs : List (K × V)) :
    ((build hash config id).extend pairs).size = distinctKeys hash pairs := by
  have hkeys := PairMap.loop_foldl_insert (sameKey_equivalence hash) pairs ({} : PairMap K V) []
  rw [List.append_nil, List.eraseDupsBy.loop, List.reverse_reverse] at hkeys
  rw [size_extend_build, distinctKeys, List.eraseDupsBy, PairMap.size, ← List.length_map Prod.fst, ← hkeys]
  rfl

theorem distinctKeys_eq_length_iff [EquivBEq K] :
    distinctKeys hash pairs = pairs.length ↔ PairMap.Distinct (sameKey hash) pairs := by
  rw [← size_eq_distinctKeys hash .standard 0 pairs, size_extend_build]
  constructor
  · intro h
    exact PairMap.distinct_of_size_foldl_insert (m := {}) List.Pairwise.nil (h.trans (Nat.zero_add _).symm)
  · intro h
    rw [foldl_insert_empty_of_distinct h]
    rfl

/-! ### Rebuilding from what was read -/

/-- The load factor is looked at before the pairs. -/
theorem ofPersisted_of_not_isValid (hlf : lf.isValid = false) (declared : Nat) :
    ofPersisted hash declared lf pairs id = .error (.invalidArgument (.loadFactor lf)) := by
  rw [← Bool.not_eq_true] at hlf
  rw [ofPersisted, readyFor, Config.forPersisted_of_not_isValid hlf]
  rfl

/-- With a valid load factor and room for the pairs, only keys that are met again are in the way. -/
theorem ofPersisted_of_not_distinct [EquivBEq K] (hvalid : lf.isValid = true) (hroom : 2 * pairs.length ≤ maxCapacity)
    (hrepeated : ¬PairMap.Distinct (sameKey hash) pairs) : ofPersisted hash pairs.length lf pairs id =
      .error (.corruptPersistedForm pairs.length (distinctKeys hash pairs)) := by
  obtain ⟨c, -, hready⟩ := exists_readyFor (V := V) hvalid hroom hash id
  have hshort : distinctKeys hash pairs ≠ pairs.length := distinctKeys_eq_length_iff.not.mpr hrepeated
  rw [ofPersisted, hready]
  show (checkCount pairs.length pairs.length ((build hash ⟨c, lf⟩ id).extend pairs).size >>= fun _ => _) = _
  rw [size_eq_distinctKeys, checkCount, if_neg (not_not.mpr rfl), if_pos hshort]
  rfl

/-! ### Reading -/

variable [BinaryCodec K] [BinaryCodec V] {input : List UInt8} {n count : UInt64}

section Sequences

variable (h : IsSequence input n count lf pairs)
include h

theorem readFrom_of_isSequence : readFrom hash input id = if pairs.length ≠ count.toNat then
    .error (.table (.corruptPersistedForm count.toNat pairs.length))
    else (ofPersisted hash count.toNat lf pairs id).mapError .table :=
  readFrom_eq (h.decodeForm_eq .persistedTable) id

theorem readFrom_ne_codec (e : CodecError) : readFrom hash input id ≠ (.error (.codec e) : Except _ (Table K V)) := by
  rw [readFrom_of_isSequence h]
  split
  · rintro ⟨⟩
  · rcases ofPersisted hash count.toNat lf pairs id with e' | t <;> rintro ⟨⟩

theorem readFrom_of_miscounted (hcount : count.toNat ≠ n.toNat - 2) :
    (readFrom hash input id : Except ReadError (Table K V)) =
      .error (.table (.corruptPersistedForm count.toNat (n.toNat - 2))) := by
  rw [readFrom_of_isSequence h, h.length_eq, if_pos (Ne.symm hcount)]

theorem readFrom_of_count_eq (hcount : count.toNat = n.toNat - 2) :
    readFrom hash input id = (ofPersisted hash pairs.length lf pairs id).mapError .table := by
  rw [readFrom_of_isSequence h, if_neg (not_not.mpr (h.length_eq.trans hcount.symm)), hcount, h.length_eq]

theorem readFrom_of_refused (hcount : count.toNat = n.toNat - 2) (hlf : ¬(lf.IsFinite ∧ 1 / 32 ≤ lf.value)) :
    (readFrom hash input id : Except ReadError (Table K V)) = .error (.table (.invalidArgument (.loadFactor lf))) := by
  rw [← LoadFactor.isValid_iff, Bool.not_eq_true] at hlf
  rw [readFrom_of_count_eq h hcount, ofPersisted_of_not_isValid hlf]
  rfl

variable [EquivBEq K]

theorem readFrom_of_repeated (hroom : 2 * pairs.length ≤ maxCapacity) (hcount : count.toNat = n.toNat - 2)
    (hlf : lf.IsFinite ∧ 1 / 32 ≤ lf.value) (hrepeated : ¬PairMap.Distinct (sameKey hash) pairs) :
    (readFrom hash input id : Except ReadError (Table K V)) =
      .error (.table (.corruptPersistedForm count.toNat (distinctKeys hash pairs))) := by
  rw [← LoadFactor.isValid_iff] at hlf
  rw [readFrom_of_count_eq h hcount, ofPersisted_of_not_distinct hlf hroom hrepeated, hcount, h.length_eq]
  rfl

theorem exists_readFrom_of_distinct (hroom : 2 * pairs.length ≤ maxCapacity) (hcount : count.toNat = n.toNat - 2)
    (hlf : lf.IsFinite ∧ 1 / 32 ≤ lf.value) (hdistinct : PairMap.Distinct (sameKey hash) pairs) :
    ∃ t : Table K V, readFrom hash input id = .ok t := by
  rw [← LoadFactor.isValid_iff] at hlf
  obtain ⟨t, ht, -⟩ := ofPersisted_of_distinct hlf hdistinct hroom id
  exact ⟨t, by rw [readFrom_of_count_eq h hcount, ht]; rfl⟩

theorem holds_of_readFrom {t : Table K V} (ht : readFrom hash input id = .ok t) : t.toList.Perm pairs ∧
    t.size = pairs.length ∧ t.loadFactor = lf ∧ t.hash = hash ∧ t.LayoutInvariant := by
  have hrebuilt := (readFrom_eq_ok_iff (h.decodeForm_eq .persistedTable)).mp ht
  exact ⟨hrebuilt.inOrder.models.perm, hrebuilt.size_eq.trans hrebuilt.length_eq.symm, hrebuilt.loadFactor_eq,
    hrebuilt.hash_eq, hrebuilt.inOrder.layout⟩

end Sequences

/-- Bytes that are no sequence fail before a table is thought of. -/
theorem exists_codec_of_not_isSequence (hash : K → UInt64) (id : Nat)
    (h : ¬∃ n count lf, ∃ pairs : List (K × V), IsSequence input n count lf pairs) :
    ∃ e, (readFrom hash input id : Except ReadError (Table K V)) = .error (.codec e) := by
  rcases hform : decodeForm (K := K) (V := V) .persistedTable input with e | ⟨elements, form⟩
  · exact ⟨e, by rw [readFrom, hform]; rfl⟩
  · obtain ⟨declared, lf, pairs, broken, trailing⟩ := form
    cases broken with
    | none =>
      obtain ⟨n, count, hsequence⟩ := isSequence_of_decodeForm hform rfl
      exact absurd ⟨n, count, lf, pairs, hsequence⟩ h
    | some e => exact ⟨e, by rw [readFrom, hform]; rfl⟩

/-- What becomes of bytes that are read as a table. -/
structure ReadsExactly (hash : K → UInt64) (input : List UInt8) (id : Nat) : Prop where
  /-- Bytes are accepted if they are a sequence with the right count, a valid load factor and distinct keys. -/
  accepted_iff : (∃ t : Table K V, readFrom hash input id = .ok t) ↔ ∃ n count lf, ∃ pairs : List (K × V),
    IsSequence input n count lf pairs ∧ count.toNat = n.toNat - 2 ∧ (lf.IsFinite ∧ 1 / 32 ≤ lf.value) ∧
      PairMap.Distinct (sameKey hash) pairs
  /-- The table then holds the pairs of the sequence and nothing else. -/
  holds {t : Table K V} (h : readFrom hash input id = .ok t) {n count : UInt64} {lf : LoadFactor}
    {pairs : List (K × V)} (hsequence : IsSequence input n count lf pairs) : t.toList.Perm pairs ∧
      t.size = pairs.length ∧ t.loadFactor = lf ∧ t.hash = hash ∧ t.LayoutInvariant
  /-- What is no sequence fails in the codec, and nothing else does. -/
  unreadable_iff : (∃ e, (readFrom hash input id : Except ReadError (Table K V)) = .error (.codec e)) ↔
    ¬∃ n count lf, ∃ pairs : List (K × V), IsSequence input n count lf pairs
  /-- First the declared count must be that of the pairs. -/
  miscounted {n count : UInt64} {lf : LoadFactor} {pairs : List (K × V)} (h : IsSequence input n count lf pairs)
    (hcount : count.toNat ≠ n.toNat - 2) : (readFrom hash input id : Except ReadError (Table K V)) =
      .error (.table (.corruptPersistedForm count.toNat (n.toNat - 2)))
  /-- Then the load factor must be finite and not too small. -/
  refused {n count : UInt64} {lf : LoadFactor} {pairs : List (K × V)} (h : IsSequence input n count lf pairs)
    (hcount : count.toNat = n.toNat - 2) (hlf : ¬(lf.IsFinite ∧ 1 / 32 ≤ lf.value)) :
    (readFrom hash input id : Except ReadError (Table K V)) = .error (.table (.invalidArgument (.loadFactor lf)))
  /-- And then no key may come twice. -/
  repeated {n count : UInt64} {lf : LoadFactor} {pairs : List (K × V)} (h : IsSequence input n count lf pairs)
    (hcount : count.toNat = n.toNat - 2) (hlf : lf.IsFinite ∧ 1 / 32 ≤ lf.value)
    (hrepeated : ¬PairMap.Distinct (sameKey hash) pairs) : (readFrom hash input id : Except ReadError (Table K V)) =
      .error (.table (.corruptPersistedForm count.toNat (distinctKeys hash pairs)))

/-- Bytes are read as a table if they are a sequence whose counts agree, whose load factor is valid and whose keys are distinct, and what is wrong with them is found out in this order. -/
theorem readFrom_accepts [EquivBEq K] (hash : K → UInt64) (input : List UInt8) (id : Nat)
    (hshort : ∀ n rest, input = wordBytes n ++ rest → n.toNat < 2 ^ 24) : ReadsExactly (V := V) hash input id := by
  have hroom {n count lf} {pairs : List (K × V)} (h : IsSequence input n count lf pairs) :
      2 * pairs.length ≤ maxCapacity := by
    exact two_mul_le_maxCapacity (Nat.le_of_lt (h.length_lt hshort))
  refine ⟨⟨?_, ?_⟩, fun ht _ _ _ _ h => holds_of_readFrom h ht, ⟨?_, exists_codec_of_not_isSequence hash id⟩,
    readFrom_of_miscounted, readFrom_of_refused, fun h => readFrom_of_repeated h (hroom h)⟩
  · rintro ⟨t, ht⟩
    -- Each of the four causes of failure would have shown in the outcome.
    by_cases hsequence : ∃ n count lf, ∃ pairs : List (K × V), IsSequence input n count lf pairs
    · obtain ⟨n, count, lf, pairs, h⟩ := hsequence
      by_cases hcount : count.toNat = n.toNat - 2
      · by_cases hlf : lf.IsFinite ∧ 1 / 32 ≤ lf.value
        · by_cases hdistinct : PairMap.Distinct (sameKey hash) pairs
          · exact ⟨n, count, lf, pairs, h, hcount, hlf, hdistinct⟩
          · cases ht.symm.trans (readFrom_of_repeated h (hroom h) hcount hlf hdistinct)
        · cases ht.symm.trans (readFrom_of_refused h hcount hlf)
      · cases ht.symm.trans (readFrom_of_miscounted h hcount)
    · obtain ⟨e, he⟩ := exists_codec_of_not_isSequence hash id hsequence
      cases ht.symm.trans he
  · rintro ⟨n, count, lf, pairs, h, hcount, hlf, hdistinct⟩
    exact exists_readFrom_of_distinct h (hroom h) hcount hlf hdistinct
  · rintro ⟨e, he⟩ ⟨n, count, lf, pairs, h⟩
    exact readFrom_ne_codec h e he

/-- A key that comes twice under a right count, with bytes that follow. -/
theorem readFrom_accepts_repeated_key : ∃ input : List UInt8,
    input = wordBytes 4 ++ (wordBytes 2 ++ (halfWordBytes LoadFactor.standard.bits ++
      ([(7, 10), (7, 20)].flatMap (encodePair : UInt64 × UInt64 → _) ++ [0xff]))) ∧
    (∀ n rest, input = wordBytes n ++ rest → n.toNat < 2 ^ 24) ∧
    (readFrom (fun k => k) input 0 : Except ReadError (Table UInt64 UInt64)) =
      .error (.table (.corruptPersistedForm 2 1)) := by
  obtain ⟨input, hinput⟩ : ∃ input : List UInt8, input = wordBytes 4 ++ (wordBytes 2 ++
    (halfWordBytes LoadFactor.standard.bits ++
      ([(7, 10), (7, 20)].flatMap (encodePair : UInt64 × UInt64 → _) ++ [0xff]))) := ⟨_, rfl⟩
  have hshort : ∀ n rest, input = wordBytes n ++ rest → n.toNat < 2 ^ 24 := by
    intro n rest h
    rw [← eq_of_wordBytes_append (hinput.symm.trans h)]
    decide
  have hsequence : IsSequence input 4 2 .standard [((7 : UInt64), (10 : UInt64)), (7, 20)] :=
    ⟨by decide, rfl, _, _, hinput, pairsAt_flatMap (fun p _ => ⟨decodes_word p.1, decodes_word p.2⟩) [0xff]⟩
  have hlf := (LoadFactor.isValid_iff .standard).mp (by decide)
  have hrepeated : ¬PairMap.Distinct (sameKey fun k => k) [((7 : UInt64), (10 : UInt64)), (7, 20)] := by
    simp [PairMap.Distinct, sameKey]
  exact ⟨input, hinput, hshort, (readFrom_accepts (fun k => k) input 0 hshort).repeated hsequence rfl hlf hrepeated⟩

end Table

end FlatTable

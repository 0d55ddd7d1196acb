import FlatTable.Proofs.Rebuild
import FlatTable.Proofs.Sequence

/-!
# Round trip through bytes

Writing a table lists its count, its load factor and its pairs, and reading takes them back one by one. The pairs are then stored in a table made ready for them, under a hash function of the reader's own. Since their keys are not equal, they stay apart whatever that function is, and both counts agree.
-/

namespace FlatTable

variable {K V : Type}

/-- Reading a form takes what writing the table put there, and nothing of what follows. -/
theorem decodeForm_encode [BinaryCodec K] [BinaryCodec V] (expected : Expected) {t : Table K V}
    (hlength : t.toList.length = t.size) (hsize : t.size + 2 < 2 ^ 64)
    (hcodec : ∀ p ∈ t.toList, Decodes p.1 ∧ Decodes p.2) (rest : List UInt8) :
    decodeForm expected (t.encode ++ rest) = .ok (t.size + 2, ⟨t.size, t.loadFactor, t.toList, none, none⟩) := by
  have helements : (t.size + 2).toUInt64.toNat = t.size + 2 := UInt64.toNat_ofNat_of_lt' hsize
  have hdeclared : t.size.toUInt64.toNat = t.size := UInt64.toNat_ofNat_of_lt' (Nat.lt_of_add_right_lt hsize)
  have hform := (isSequence_encode hlength hsize hcodec rest).decodeForm_eq expected
  rwa [helements, hdeclared] at hform

namespace Table

/-! ### Rebuilding a table -/

section Rebuilding

variable [BEq K] [EquivBEq K]

omit [EquivBEq K] in
/-- Equal keys that hash equally never stand in a table twice, and so stay apart under any other hash function. -/
theorem distinct_of_rehash {t : Table K V} (hlayout : t.LayoutInvariant)
    (hequal : ∀ a b, (a == b) = true → t.hash a = t.hash b) (hash : K → UInt64) :
    PairMap.Distinct (sameKey hash) t.toList := by
  -- Under the table's own hash function keys are told apart by equality alone.
  have hdistinct := distinct_toList hlayout
  rw [sameKey_eq_beq hequal] at hdistinct
  refine hdistinct.imp ?_
  intro p q hpq
  exact (congrArg _ hpq).trans (Bool.and_false _)

/-- Pairs with distinct keys are rebuilt to a table of exactly these. -/
theorem ofPersisted_of_distinct {hash : K → UInt64} {lf : LoadFactor} (hvalid : lf.isValid = true) {pairs : List (K × V)}
    (hdistinct : PairMap.Distinct (sameKey hash) pairs) (hcount : 2 * pairs.length ≤ maxCapacity) (id : Nat) :
    ∃ u, ofPersisted hash pairs.length lf pairs id = .ok u ∧ u.Models ⟨pairs⟩ ∧ u.hash = hash ∧ u.loadFactor = lf := by
  obtain ⟨u, hu⟩ := exists_rebuilt hvalid hcount hdistinct id
  exact ⟨u, ofPersisted_eq_ok_iff.mpr hu, hu.inOrder.models, hu.hash_eq, hu.loadFactor_eq⟩

/-- The pairs of a table are rebuilt under any other hash function, whatever number of them is made ready for. -/
theorem exists_rebuilt_toList {t : Table K V} (ht : t.Reachable) (hcount : t.size ≤ 2 ^ 24)
    (hequal : ∀ a b, (a == b) = true → t.hash a = t.hash b) (hash : K → UInt64) {ready : Nat} (hready : ready ≤ t.size)
    (id : Nat) : ∃ u, Rebuilt hash ready t.size t.loadFactor t.toList id u := by
  have hsound := sound_of_reachable ht
  have hroom := two_mul_le_maxCapacity (hready.trans hcount)
  obtain ⟨u, hu⟩ := exists_rebuilt hsound.loadFactor_isValid hroom (distinct_of_rehash hsound.layout hequal hash) id
  rw [hsound.layout.length_toList] at hu
  exact ⟨u, hu⟩

end Rebuilding

variable [BEq K] [EquivBEq K] [BinaryCodec K] [BinaryCodec V]

/-- What was written of a table reads back as a table with the same load factor, count and pairs, laid out under the reader's hash function, whatever bytes follow. -/
theorem readFrom_encode {t : Table K V} (ht : t.Reachable) (hcount : t.size ≤ 2 ^ 24)
    (hequal : ∀ a b, (a == b) = true → t.hash a = t.hash b) (hcodec : ∀ p ∈ t.toList, Decodes p.1 ∧ Decodes p.2)
    (hash : K → UInt64) (rest : List UInt8) (id : Nat) :
    ∃ u, readFrom hash (t.encode ++ rest) id = .ok u ∧ u.loadFactor.bits = t.loadFactor.bits ∧ u.size = t.size ∧
      u.toList.Perm t.toList ∧ u.hash = hash ∧ u.LayoutInvariant ∧ u.ExactThreshold := by
  have hsound := sound_of_reachable ht
  have hlength : t.toList.length = t.size := (size_eq_of_models (models_toList hsound.layout)).symm
  have hmax : maxCapacity = 2 ^ 30 := by decide
  obtain ⟨u, hu, hmodels, huhash, hulf⟩ := ofPersisted_of_distinct hsound.loadFactor_isValid
    (distinct_of_rehash hsound.layout hequal hash) (by rw [hlength, hmax]; omega) id
  have hread : readFrom hash (t.encode ++ rest) id = .ok u := by
    rw [readFrom, decodeForm_encode .persistedTable hlength (by omega) hcodec rest]
    change (if t.toList.length ≠ t.size then _ else (ofPersisted hash t.size t.loadFactor t.toList id).mapError _) = _
    rw [if_neg (not_not.mpr hlength), ← hlength, hu]
    rfl
  have husound : u.Sound := ⟨hmodels.layout, hulf ▸ hsound.loadFactor_isValid⟩
  have hsize : u.size = t.size := (size_eq_of_models hmodels).trans hlength
  exact ⟨u, hread, congrArg LoadFactor.bits hulf, hsize, hmodels.perm, huhash, hmodels.layout,
    exactThreshold_of_sound husound⟩

/-- A value that does not equal itself, under keys that collide before and not after, with bytes that follow. -/
theorem readFrom_encode_not_a_number : ∃ t : Table UInt64 Double, ∃ u,
    t.toList = [(1, ⟨0x7ff8000000000000⟩), (2, ⟨0x3ff0000000000000⟩)] ∧
    readFrom (fun k => k) (t.encode ++ [0xff, 0x00]) 1 = .ok u ∧ u.loadFactor.bits = t.loadFactor.bits ∧
      u.size = t.size ∧ u.toList.Perm t.toList ∧ u.hash = (fun k => k) ∧ u.LayoutInvariant ∧ u.ExactThreshold := by
  obtain ⟨t, ht⟩ : ∃ t : Table UInt64 Double, t = (build (fun _ => 7) .standard 0).extend
      [(1, ⟨0x7ff8000000000000⟩), (2, ⟨0x3ff0000000000000⟩)] := ⟨_, rfl⟩
  have hreachable : t.Reachable := ht ▸ .made (.collect _ _ _)
  have hpairs : t.toList = [(1, ⟨0x7ff8000000000000⟩), (2, ⟨0x3ff0000000000000⟩)] := by
    rw [ht]
    decide +kernel
  have hsize : t.size = 2 := by
    rw [ht]
    decide +kernel
  have hequal : ∀ a b, (a == b) = true → t.hash a = t.hash b := by
    rw [ht, (keeps_extend _ _).hash]
    exact fun _ _ _ => rfl
  obtain ⟨u, hu⟩ := readFrom_encode hreachable (by rw [hsize]; decide) hequal
    (fun p _ => ⟨decodes_word p.1, decodes_double p.2⟩) (fun k => k) [0xff, 0x00] 1
  exact ⟨t, u, hpairs, hu⟩

end Table

end FlatTable

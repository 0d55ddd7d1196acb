import FlatTable.Persist.Binary
import FlatTable.Proofs.Bytes
import FlatTable.Proofs.Reachable

/-!
# Bytes as a sequence

The binary form of a table is a sequence: a length, a count, a load factor and pairs. `IsSequence` says that bytes begin with one, in terms of the element codecs alone, and a form is read without an error exactly from such bytes.
-/

namespace FlatTable

variable {K V : Type} [BinaryCodec K] [BinaryCodec V]

/-! ### Pairs -/

/-- Bytes from which pairs are decoded one after the other, and the bytes behind them. -/
inductive PairsAt : List UInt8 → List (K × V) → List UInt8 → Prop
  | nil (rest : List UInt8) : PairsAt rest [] rest
  | cons {input afterKey afterValue rest : List UInt8} {k : K} {v : V} {pairs : List (K × V)}
      (hkey : BinaryCodec.decode.run input = .ok (k, afterKey))
      (hvalue : BinaryCodec.decode.run afterKey = .ok (v, afterValue))
      (hpairs : PairsAt afterValue pairs rest) : PairsAt input ((k, v) :: pairs) rest

theorem pairsAt_flatMap {pairs : List (K × V)} (h : ∀ p ∈ pairs, Decodes p.1 ∧ Decodes p.2) (rest : List UInt8) :
    PairsAt (pairs.flatMap encodePair ++ rest) pairs rest := by
  induction pairs with
  | nil => exact .nil rest
  | cons p pairs ih =>
    obtain ⟨hk, hv⟩ := h p List.mem_cons_self
    rw [List.flatMap_cons, encodePair, List.append_assoc, List.append_assoc]
    exact .cons (hk _) (hv _) (ih fun q hq => h q (List.mem_cons_of_mem p hq))

theorem run_decodePair_eq_ok_iff {input rest : List UInt8} {p : K × V} : decodePair.run input = .ok (p, rest) ↔
    ∃ afterKey, BinaryCodec.decode.run input = .ok (p.1, afterKey) ∧ BinaryCodec.decode.run afterKey = .ok (p.2, rest) := by
  constructor
  · intro h
    obtain ⟨k, afterKey, hk, h⟩ := ByteReader.exists_of_run_bind h
    obtain ⟨v, afterValue, hv, h⟩ := ByteReader.exists_of_run_bind h
    obtain ⟨rfl, rfl⟩ := Prod.mk.inj (Except.ok.inj h)
    exact ⟨afterKey, hk, hv⟩
  · rintro ⟨afterKey, hk, hv⟩
    rw [decodePair, ByteReader.run_bind hk, ByteReader.run_bind hv]
    rfl

theorem decodePairs_of_pairsAt {input rest : List UInt8} {pairs : List (K × V)} (h : PairsAt input pairs rest)
    (reversed : List (K × V)) : decodePairs pairs.length input reversed = (reversed.reverse ++ pairs, none) := by
  induction h generalizing reversed with
  | nil rest => rw [List.length_nil, decodePairs, List.append_nil]
  | @cons input afterKey afterValue rest k v pairs hk hv _ ih =>
    have hpair : decodePair.run input = .ok ((k, v), afterValue) := run_decodePair_eq_ok_iff.mpr ⟨afterKey, hk, hv⟩
    rw [List.length_cons, decodePairs, hpair]
    show decodePairs pairs.length afterValue ((k, v) :: reversed) = _
    rw [ih, List.reverse_cons, List.append_assoc]
    rfl

/-- Pairs that were read to the last stand there one after the other. -/
theorem pairsAt_of_decodePairs {count : Nat} {input : List UInt8} {reversed pairs : List (K × V)}
    (h : decodePairs count input reversed = (pairs, none)) :
    ∃ ps rest, pairs = reversed.reverse ++ ps ∧ ps.length = count ∧ PairsAt input ps rest := by
  induction count generalizing input reversed with
  | zero =>
    obtain ⟨rfl, -⟩ := Prod.mk.inj h
    exact ⟨[], input, (List.append_nil _).symm, rfl, .nil input⟩
  | succ count ih =>
    rw [decodePairs] at h
    rcases hpair : (decodePair : ByteReader (K × V)).run input with e | ⟨p, afterValue⟩ <;> rw [hpair] at h
    · cases (Prod.mk.inj h).2
    · obtain ⟨ps, rest, rfl, rfl, hps⟩ := ih h
      obtain ⟨afterKey, hk, hv⟩ := run_decodePair_eq_ok_iff.mp hpair
      refine ⟨p :: ps, rest, ?_, rfl, .cons hk hv hps⟩
      rw [List.reverse_cons, List.append_assoc]
      rfl

/-! ### The header -/

theorem takes_header (expected : Expected) {n : UInt64} (h : 2 ≤ n.toNat) (count : UInt64) (lf : LoadFactor) :
    (decodeHeader expected).Takes (wordBytes n ++ (wordBytes count ++ halfWordBytes lf.bits)) (n.toNat, count.toNat, lf) := by
  refine (ByteReader.takes_word n).bind ?_
  rw [if_neg (by omega)]
  refine (ByteReader.takes_word count).bind ?_
  rw [if_neg (by omega)]
  exact (ByteReader.takes_halfWord lf.bits).bind_pure rfl

theorem exists_of_run_decodeHeader {expected : Expected} {input rest : List UInt8} {elements declared : Nat}
    {lf : LoadFactor} (h : (decodeHeader expected).run input = .ok ((elements, declared, lf), rest)) :
    ∃ n count : UInt64, 2 ≤ n.toNat ∧ elements = n.toNat ∧ declared = count.toNat ∧
      input = wordBytes n ++ (wordBytes count ++ (halfWordBytes lf.bits ++ rest)) := by
  obtain ⟨n, afterLength, hn, h⟩ := ByteReader.exists_of_run_bind h
  by_cases hzero : n.toNat = 0
  · rw [if_pos hzero] at h
    cases h
  rw [if_neg hzero] at h
  obtain ⟨count, afterCount, hcount, h⟩ := ByteReader.exists_of_run_bind h
  by_cases hone : n.toNat = 1
  · rw [if_pos hone] at h
    cases h
  rw [if_neg hone] at h
  obtain ⟨bits, afterBits, hbits, h⟩ := ByteReader.exists_of_run_bind h
  cases h
  refine ⟨n, count, by omega, rfl, rfl, ?_⟩
  rw [ByteReader.run_word_eq_ok_iff.mp hn, ByteReader.run_word_eq_ok_iff.mp hcount,
    ByteReader.run_halfWord_eq_ok_iff.mp hbits]

/-! ### Whole sequences -/

/-- Bytes that can be read as a sequence of `n` elements: a count, a load factor and pairs. What follows does not matter. -/
structure IsSequence (input : List UInt8) (n count : UInt64) (lf : LoadFactor) (pairs : List (K × V)) : Prop where
  two_le : 2 ≤ n.toNat
  length_eq : pairs.length = n.toNat - 2
  exists_body : ∃ body rest, input = wordBytes n ++ (wordBytes count ++ (halfWordBytes lf.bits ++ body)) ∧
    PairsAt body pairs rest

/-- A length that is small wherever it is read off the bytes bounds the number of pairs. -/
theorem IsSequence.length_lt {input : List UInt8} {n count : UInt64} {lf : LoadFactor} {pairs : List (K × V)}
    (h : IsSequence input n count lf pairs) {limit : Nat}
    (hshort : ∀ n rest, input = wordBytes n ++ rest → n.toNat < limit) : pairs.length < limit := by
  obtain ⟨body, rest, hinput, -⟩ := h.exists_body
  have hn := hshort n _ hinput
  have hlength := h.length_eq
  omega

theorem isSequence_encode {t : Table K V} (hlength : t.toList.length = t.size) (hsize : t.size + 2 < 2 ^ 64)
    (hcodec : ∀ p ∈ t.toList, Decodes p.1 ∧ Decodes p.2) (rest : List UInt8) :
    IsSequence (t.encode ++ rest) (t.size + 2).toUInt64 t.size.toUInt64 t.loadFactor t.toList := by
  have helements : (t.size + 2).toUInt64.toNat = t.size + 2 := UInt64.toNat_ofNat_of_lt' hsize
  refine ⟨by omega, by omega, _, rest, ?_, pairsAt_flatMap hcodec rest⟩
  rw [Table.encode, List.append_assoc, List.append_assoc, List.append_assoc]

/-- A sequence is read as it stands. -/
theorem IsSequence.decodeForm_eq {input : List UInt8} {n count : UInt64} {lf : LoadFactor} {pairs : List (K × V)}
    (h : IsSequence input n count lf pairs) (expected : Expected) :
    decodeForm expected input = .ok (n.toNat, ⟨count.toNat, lf, pairs, none, none⟩) := by
  obtain ⟨body, rest, rfl, hpairs⟩ := h.exists_body
  have hread := decodePairs_of_pairsAt hpairs []
  rw [h.length_eq] at hread
  have hheader := (takes_header expected h.two_le count lf).run_append body
  rw [List.append_assoc, List.append_assoc] at hheader
  rw [decodeForm, hheader]
  show Except.ok (n.toNat, (⟨count.toNat, lf, (decodePairs (n.toNat - 2) body []).1,
    (decodePairs (n.toNat - 2) body []).2, none⟩ : Form K V CodecError)) = _
  rw [hread]
  rfl

/-- What was read without an error is a sequence. -/
theorem isSequence_of_decodeForm {expected : Expected} {input : List UInt8} {elements : Nat}
    {form : Form K V CodecError} (h : decodeForm expected input = .ok (elements, form)) (hbroken : form.broken = none) :
    ∃ n count, IsSequence input n count form.loadFactor form.pairs := by
  obtain ⟨⟨⟨elements, declared, lf⟩, body⟩, hheader, hform⟩ := exists_of_bind_eq_ok h
  obtain ⟨n, count, htwo, rfl, rfl, rfl⟩ := exists_of_run_decodeHeader hheader
  rcases hread : (decodePairs (n.toNat - 2) body [] : List (K × V) × _) with ⟨pairs, broken⟩
  simp only [hread] at hform
  obtain ⟨rfl, rfl⟩ := Prod.mk.inj (Except.ok.inj hform)
  obtain rfl : broken = none := hbroken
  obtain ⟨ps, rest, rfl, hlength, hpairs⟩ := pairsAt_of_decodePairs hread
  exact ⟨n, count, htwo, hlength, body, rest, rfl, hpairs⟩

end FlatTable

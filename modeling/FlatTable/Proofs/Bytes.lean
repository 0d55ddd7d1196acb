import FlatTable.Element.Kinds
import Mathlib.Data.Nat.Digits.Defs

/-!
# Numbers as bytes

The bytes of a word are its digits in base 256, least significant first, and reading a word takes exactly the bytes that spell it. From there every element codec gives back what it encoded, leaves what follows, and runs out of bytes when these are cut short.
-/

namespace FlatTable

/-! ### Digits in base 256 -/

/-- The number that bytes spell, the least significant first. -/
def bytesValue (bytes : List UInt8) : Nat := Nat.ofDigits 256 (bytes.map UInt8.toNat)

theorem bytesValue_cons (b : UInt8) (bytes : List UInt8) :
    bytesValue (b :: bytes) = b.toNat + 256 * bytesValue bytes :=
  Nat.ofDigits_cons

theorem bytesValue_lt (bytes : List UInt8) : bytesValue bytes < 256 ^ bytes.length := by
  have hdigits : ∀ d ∈ bytes.map UInt8.toNat, d < 256 := by
    intro d hd
    obtain ⟨b, -, rfl⟩ := List.mem_map.mp hd
    exact b.toNat_lt
  have hlt := Nat.ofDigits_lt_base_pow_length (by decide) hdigits
  rwa [List.length_map] at hlt

/-- Bytes that are the digits of a number spell it. -/
theorem bytesValue_digits {n : Nat} {f : Nat → UInt8} {count : Nat}
    (hf : ∀ i < count, (f i).toNat = n / 256 ^ i % 256) : bytesValue ((List.range count).map f) = n % 256 ^ count := by
  induction count with
  | zero => simp [bytesValue, Nat.mod_one]
  | succ count ih =>
    have hinit := ih fun i hi => hf i (by omega)
    rw [bytesValue] at hinit
    rw [bytesValue, List.range_succ, List.map_append, List.map_append, Nat.ofDigits_append, hinit, List.length_map,
      List.length_map, List.length_range, Nat.mod_pow_succ, ← hf count (by omega)]
    simp

/-- Bytes are known from their number and from what they spell. -/
theorem eq_of_bytesValue_eq {bytes bytes' : List UInt8} (hlength : bytes.length = bytes'.length)
    (h : bytesValue bytes = bytesValue bytes') : bytes = bytes' := by
  induction bytes generalizing bytes' with
  | nil => exact (List.eq_nil_of_length_eq_zero hlength.symm).symm
  | cons b bytes ih =>
    cases bytes' with
    | nil => cases hlength
    | cons b' bytes' =>
      rw [bytesValue_cons, bytesValue_cons] at h
      have hb := b.toNat_lt
      have hb' := b'.toNat_lt
      have hfirst : b = b' := UInt8.toNat_inj.mp (by omega)
      have hrest : bytes = bytes' := ih (Nat.succ.inj hlength) (by omega)
      rw [hfirst, hrest]

/-! ### Words -/

theorem length_wordBytes (w : UInt64) : (wordBytes w).length = 8 := by
  rw [wordBytes, List.length_map, List.length_range]

theorem length_halfWordBytes (w : UInt32) : (halfWordBytes w).length = 4 := by
  rw [halfWordBytes, List.length_map, List.length_range]

theorem bytesValue_wordBytes (w : UInt64) : bytesValue (wordBytes w) = w.toNat := by
  have hdigits : ∀ i < 8, ((w >>> (8 * i).toUInt64).toUInt8).toNat = w.toNat / 256 ^ i % 256 := by
    intro i hi
    have hshift : ∀ i < 8, ((8 * i).toUInt64).toNat % 64 = 8 * i := by decide
    rw [UInt64.toNat_toUInt8, UInt64.toNat_shiftRight, hshift i hi, Nat.shiftRight_eq_div_pow, Nat.pow_mul]
  rw [wordBytes, bytesValue_digits hdigits]
  exact Nat.mod_eq_of_lt w.toNat_lt

theorem bytesValue_halfWordBytes (w : UInt32) : bytesValue (halfWordBytes w) = w.toNat := by
  have hdigits : ∀ i < 4, ((w >>> (8 * i).toUInt32).toUInt8).toNat = w.toNat / 256 ^ i % 256 := by
    intro i hi
    have hshift : ∀ i < 4, ((8 * i).toUInt32).toNat % 32 = 8 * i := by decide
    rw [UInt32.toNat_toUInt8, UInt32.toNat_shiftRight, hshift i hi, Nat.shiftRight_eq_div_pow, Nat.pow_mul]
  rw [halfWordBytes, bytesValue_digits hdigits]
  exact Nat.mod_eq_of_lt w.toNat_lt

theorem toNat_wordOfBytes {bytes : List UInt8} (h : bytes.length ≤ 8) :
    (wordOfBytes bytes).toNat = bytesValue bytes := by
  induction bytes with
  | nil => rfl
  | cons b bytes ih =>
    rw [List.length_cons] at h
    have hbytes := ih (by omega)
    have hlt : bytesValue bytes < 256 ^ 7 :=
      Nat.lt_of_lt_of_le (bytesValue_lt bytes) (Nat.pow_le_pow_right (by decide) (by omega))
    change ((wordOfBytes bytes <<< 8) ||| b.toUInt64).toNat = _
    have hshift : (wordOfBytes bytes <<< 8).toNat = bytesValue bytes <<< 8 := by
      have hsmall : bytesValue bytes <<< 8 < 2 ^ 64 := by
        rw [Nat.shiftLeft_eq]
        omega
      rw [UInt64.toNat_shiftLeft, hbytes]
      exact Nat.mod_eq_of_lt hsmall
    rw [UInt64.toNat_or, hshift, UInt8.toNat_toUInt64, ← Nat.shiftLeft_add_eq_or_of_lt b.toNat_lt, bytesValue_cons,
      Nat.shiftLeft_eq]
    omega

theorem wordOfBytes_wordBytes (w : UInt64) : wordOfBytes (wordBytes w) = w := by
  rw [← UInt64.toNat_inj, toNat_wordOfBytes (by rw [length_wordBytes]), bytesValue_wordBytes]

theorem eq_of_wordBytes_append {w w' : UInt64} {rest rest' : List UInt8}
    (h : wordBytes w ++ rest = wordBytes w' ++ rest') : w = w' := by
  have hlength : (wordBytes w).length = (wordBytes w').length := by rw [length_wordBytes, length_wordBytes]
  rw [← wordOfBytes_wordBytes w, (List.append_inj h hlength).1, wordOfBytes_wordBytes]

theorem toUInt32_wordOfBytes_halfWordBytes (w : UInt32) : (wordOfBytes (halfWordBytes w)).toUInt32 = w := by
  rw [← UInt32.toNat_inj, UInt64.toNat_toUInt32, toNat_wordOfBytes (by rw [length_halfWordBytes]; decide),
    bytesValue_halfWordBytes]
  exact Nat.mod_eq_of_lt w.toNat_lt

theorem wordBytes_wordOfBytes {bytes : List UInt8} (h : bytes.length = 8) : wordBytes (wordOfBytes bytes) = bytes := by
  apply eq_of_bytesValue_eq
  · rw [length_wordBytes, h]
  · rw [bytesValue_wordBytes, toNat_wordOfBytes (Nat.le_of_eq h)]

theorem halfWordBytes_toUInt32_wordOfBytes {bytes : List UInt8} (h : bytes.length = 4) :
    halfWordBytes (wordOfBytes bytes).toUInt32 = bytes := by
  apply eq_of_bytesValue_eq
  · rw [length_halfWordBytes, h]
  · have hlt := bytesValue_lt bytes
    rw [h] at hlt
    rw [bytesValue_halfWordBytes, UInt64.toNat_toUInt32, toNat_wordOfBytes (by omega)]
    exact Nat.mod_eq_of_lt hlt

/-! ### Readers -/

namespace ByteReader

theorem run_bytes {front : List UInt8} {n : Nat} (h : front.length = n) (rest : List UInt8) :
    (bytes n).run (front ++ rest) = .ok (front, rest) := by
  subst h
  change (if ((front ++ rest).take front.length).length < front.length then _ else _) = _
  rw [List.take_left' rfl, List.drop_left' rfl, if_neg (Nat.lt_irrefl _)]

/-- A reader in two parts goes on with what its first part left. -/
theorem run_bind {α β : Type} {x : ByteReader α} {f : α → ByteReader β} {input rest : List UInt8} {a : α}
    (h : x.run input = .ok (a, rest)) : (x >>= f).run input = (f a).run rest := by
  rw [StateT.run_bind, h]
  rfl

/-- A reader takes bytes for a value: whatever follows them is left, and where they are cut short they run out. -/
structure Takes {α : Type} (x : ByteReader α) (front : List UInt8) (a : α) : Prop where
  run_append (rest : List UInt8) : x.run (front ++ rest) = .ok (a, rest)
  run_take {n : Nat} (h : n < front.length) : x.run (front.take n) = .error .outOfBytes

theorem takes_bytes {front : List UInt8} {n : Nat} (h : front.length = n) : Takes (bytes n) front front where
  run_append := run_bytes h
  run_take := by
    intro m hm
    have hshort : ((front.take m).take n).length < n := by
      rw [List.length_take, List.length_take]
      omega
    exact if_pos hshort

theorem takes_pure {α : Type} (a : α) : Takes (pure a) [] a where
  run_append _ := rfl
  run_take h := absurd h (Nat.not_lt_zero _)

/-- Bytes are cut short in the first part or in the second, which is then reached. -/
theorem Takes.bind {α β : Type} {x : ByteReader α} {f : α → ByteReader β} {front back : List UInt8} {a : α} {b : β}
    (hx : Takes x front a) (hf : Takes (f a) back b) : Takes (x >>= f) (front ++ back) b where
  run_append rest := by rw [List.append_assoc, run_bind (hx.run_append _), hf.run_append]
  run_take := by
    intro n hn
    rw [List.length_append] at hn
    rcases Nat.lt_or_ge n front.length with hcut | hwhole
    · rw [List.take_append_of_le_length (Nat.le_of_lt hcut), StateT.run_bind, hx.run_take hcut]
      rfl
    · rw [List.take_append, List.take_of_length_le hwhole, run_bind (hx.run_append _), hf.run_take (by omega)]

theorem Takes.bind_pure {α β : Type} {x : ByteReader α} {f : α → ByteReader β} {front : List UInt8} {a : α} {b : β}
    (hx : Takes x front a) (hf : f a = pure b) : Takes (x >>= f) front b := by
  rw [← List.append_nil front]
  exact hx.bind (hf ▸ takes_pure b)

theorem takes_word (w : UInt64) : Takes word (wordBytes w) w :=
  (takes_bytes (length_wordBytes w)).bind_pure (congrArg pure (wordOfBytes_wordBytes w))

theorem takes_halfWord (w : UInt32) : Takes halfWord (halfWordBytes w) w :=
  (takes_bytes (length_halfWordBytes w)).bind_pure (congrArg pure (toUInt32_wordOfBytes_halfWordBytes w))

/-- What a reader in two parts reads, its parts read one after the other. -/
theorem exists_of_run_bind {α β : Type} {x : ByteReader α} {f : α → ByteReader β} {input : List UInt8}
    {r : β × List UInt8} (h : (x >>= f).run input = .ok r) :
    ∃ a rest, x.run input = .ok (a, rest) ∧ (f a).run rest = .ok r := by
  rw [StateT.run_bind] at h
  rcases hx : x.run input with e | ⟨a, rest⟩ <;> rw [hx] at h
  · cases h
  · exact ⟨a, rest, rfl, h⟩

theorem run_bytes_eq_ok_iff {n : Nat} {input front rest : List UInt8} :
    (bytes n).run input = .ok (front, rest) ↔ input = front ++ rest ∧ front.length = n := by
  constructor
  · intro h
    change (if (input.take n).length < n then _ else Except.ok (input.take n, input.drop n)) = _ at h
    split at h
    · cases h
    · rename_i hlong
      obtain ⟨rfl, rfl⟩ := Prod.mk.inj (Except.ok.inj h)
      refine ⟨(List.take_append_drop n input).symm, ?_⟩
      rw [List.length_take] at hlong ⊢
      omega
  · rintro ⟨rfl, hlength⟩
    exact run_bytes hlength rest

theorem run_word_eq_ok_iff {input rest : List UInt8} {w : UInt64} :
    word.run input = .ok (w, rest) ↔ input = wordBytes w ++ rest := by
  constructor
  · intro h
    obtain ⟨front, mid, hbytes, hword⟩ := exists_of_run_bind h
    obtain ⟨rfl, hlength⟩ := run_bytes_eq_ok_iff.mp hbytes
    obtain ⟨rfl, rfl⟩ := Prod.mk.inj (Except.ok.inj hword)
    rw [wordBytes_wordOfBytes hlength]
  · rintro rfl
    exact (takes_word w).run_append rest

theorem run_halfWord_eq_ok_iff {input rest : List UInt8} {w : UInt32} :
    halfWord.run input = .ok (w, rest) ↔ input = halfWordBytes w ++ rest := by
  constructor
  · intro h
    obtain ⟨front, mid, hbytes, hword⟩ := exists_of_run_bind h
    obtain ⟨rfl, hlength⟩ := run_bytes_eq_ok_iff.mp hbytes
    obtain ⟨rfl, rfl⟩ := Prod.mk.inj (Except.ok.inj hword)
    rw [halfWordBytes_toUInt32_wordOfBytes hlength]
  · rintro rfl
    exact (takes_halfWord w).run_append rest

/-- Text of less than `2 ^ 64` bytes, whose length a word holds. -/
theorem takes_text {s : String} (h : (textBytes s).length < 2 ^ 64) : Takes text (sizedText s) s := by
  have hlength : (textBytes s).length = (textBytes s).length.toUInt64.toNat := (UInt64.toNat_ofNat_of_lt' h).symm
  have hvalid : String.fromUTF8? ⟨(textBytes s).toArray⟩ = some s := by
    rw [String.fromUTF8?]
    exact dif_pos s.isValidUTF8
  refine (takes_word _).bind ((takes_bytes hlength).bind_pure ?_)
  rw [hvalid]

end ByteReader

/-! ### Element codecs -/

/-- Reading gives back what was encoded and leaves what follows. -/
def Decodes {α : Type} [BinaryCodec α] (a : α) : Prop :=
  ∀ rest, (BinaryCodec.decode : ByteReader α).run (BinaryCodec.encode a ++ rest) = .ok (a, rest)

/-- The bytes of an element are taken for it, all of them and no others. -/
def Framed {α : Type} [BinaryCodec α] (a : α) : Prop :=
  ByteReader.Takes BinaryCodec.decode (BinaryCodec.encode a) a

theorem Framed.decodes {α : Type} [BinaryCodec α] {a : α} (h : Framed a) : Decodes a := h.run_append

open ByteReader

theorem framed_word (w : UInt64) : Framed w := takes_word w

theorem framed_signed (n : Int64) : Framed n := (takes_word n.toUInt64).bind_pure rfl

theorem framed_double (x : Double) : Framed x := (takes_word x.bits).bind_pure rfl

theorem framed_tagged (k : TaggedKey) : Framed k := (takes_word k.hash).bind ((takes_word k.id).bind_pure rfl)

theorem framed_noText : Framed (none : Option String) := by
  have hmark : ([0] : List UInt8).length = 1 := rfl
  exact (takes_bytes hmark).bind_pure rfl

section Text

variable {s : String} (h : (textBytes s).length < 2 ^ 64)
include h

theorem framed_text : Framed s := takes_text h

theorem framed_caseless : Framed (CaselessText.mk s) := (takes_text h).bind_pure rfl

theorem framed_someText : Framed (some s) := by
  have hmark : ([1] : List UInt8).length = 1 := rfl
  exact (takes_bytes hmark).bind ((takes_text h).bind_pure rfl)

end Text

theorem decodes_word (w : UInt64) : Decodes w := (framed_word w).decodes

theorem decodes_double (x : Double) : Decodes x := (framed_double x).decodes

end FlatTable

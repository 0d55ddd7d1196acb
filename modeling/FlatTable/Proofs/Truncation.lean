import FlatTable.Proofs.RoundTrip

/-!
# Bytes that end early

The bytes of a table can be cut in the header, in a length, in a text or between two pairs. A reader whose own bytes are cut short runs out of them, and so does one that is made of such readers. Nothing else can be wrong with what stands before the cut, since a table wrote it: its header asks for no more room than there is, its load factor is valid, and its pairs are counted after the last of them is read, which never happens.
-/

namespace FlatTable

/-! ### Kinds of elements -/

instance : EquivBEq CaselessText where
  rfl := by
    intro a
    show (a.text.toLower == a.text.toLower) = true
    exact BEq.rfl
  symm := by
    intro a b h
    show (b.text.toLower == a.text.toLower) = true
    exact BEq.symm h
  trans := by
    intro a b c hab hbc
    show (a.text.toLower == c.text.toLower) = true
    exact BEq.trans hab hbc

instance : EquivBEq TaggedKey where
  rfl := by
    intro a
    show (a.id == a.id) = true
    exact BEq.rfl
  symm := by
    intro a b h
    show (b.id == a.id) = true
    exact BEq.symm h
  trans := by
    intro a b c hab hbc
    show (a.id == c.id) = true
    exact BEq.trans hab hbc

/-- The kinds of keys and values, with their binary forms. -/
inductive ElementKind : (α : Type) → [BinaryCodec α] → Prop
  | word : ElementKind UInt64
  | signed : ElementKind Int64
  | double : ElementKind Double
  | text : ElementKind String
  | optionalText : ElementKind (Option String)
  | caseless : ElementKind CaselessText
  | tagged : ElementKind TaggedKey

/-- The length of a text must fit in a word, so that the reader is told of all of its bytes. -/
theorem ElementKind.framed {α : Type} [BinaryCodec α] (h : ElementKind α) {a : α}
    (hsize : (BinaryCodec.encode a).length < 2 ^ 64) : Framed a := by
  have hbody (s : String) (hs : (sizedText s).length < 2 ^ 64) : (textBytes s).length < 2 ^ 64 := by
    rw [sizedText, List.length_append] at hs
    omega
  cases h with
  | word => exact framed_word a
  | signed => exact framed_signed a
  | double => exact framed_double a
  | text => exact framed_text (hbody a hsize)
  | optionalText =>
    cases a with
    | none => exact framed_noText
    | some s => exact framed_someText (hbody s (Nat.lt_of_succ_lt hsize))
  | caseless => exact framed_caseless (hbody a.text hsize)
  | tagged => exact framed_tagged a

/-! ### Forms -/

section Forms

variable {K V : Type} [BinaryCodec K] [BinaryCodec V]

theorem takes_pair {p : K × V} (hkey : Framed p.1) (hvalue : Framed p.2) : decodePair.Takes (encodePair p) p :=
  hkey.bind (hvalue.bind_pure rfl)

/-- The pairs break off at the one that is cut. -/
theorem decodePairs_take {pairs : List (K × V)} (hframed : ∀ p ∈ pairs, Framed p.1 ∧ Framed p.2) {n : Nat}
    (hn : n < (pairs.flatMap encodePair).length) (reversed : List (K × V)) :
    ∃ read, decodePairs pairs.length ((pairs.flatMap encodePair).take n) reversed = (read, some .outOfBytes) := by
  induction pairs generalizing n reversed with
  | nil => exact absurd hn (Nat.not_lt_zero n)
  | cons p pairs ih =>
    obtain ⟨hkey, hvalue⟩ := hframed p List.mem_cons_self
    have hpair := takes_pair hkey hvalue
    rw [List.flatMap_cons, List.length_append] at hn
    rw [List.flatMap_cons, List.length_cons, decodePairs]
    -- The cut is in the first pair, or the reader comes past this pair and meets the cut among the others.
    by_cases hcut : n < (encodePair p).length
    · rw [List.take_append_of_le_length (Nat.le_of_lt hcut), hpair.run_take hcut]
      exact ⟨reversed.reverse, rfl⟩
    · rw [List.take_append, List.take_of_length_le (Nat.not_lt.mp hcut), hpair.run_append]
      apply ih
      · intro q hq
        exact hframed q (List.mem_cons_of_mem p hq)
      · omega

/-- What a table wrote and was cut short is given up in the header, or the header is whole and a pair is broken. -/
theorem decodeForm_take (expected : Expected) {t : Table K V} (hlength : t.toList.length = t.size)
    (hsize : t.size + 2 < 2 ^ 64) (hframed : ∀ p ∈ t.toList, Framed p.1 ∧ Framed p.2) {n : Nat} (hn : n < t.encode.length) :
    (decodeForm expected (t.encode.take n) : Except CodecError (Nat × Form K V CodecError)) = .error .outOfBytes ∨
      ∃ pairs, decodeForm expected (t.encode.take n) =
        .ok (t.size + 2, (⟨t.size, t.loadFactor, pairs, some .outOfBytes, none⟩ : Form K V CodecError)) := by
  have helements : (t.size + 2).toUInt64.toNat = t.size + 2 := UInt64.toNat_ofNat_of_lt' hsize
  have hdeclared : t.size.toUInt64.toNat = t.size := UInt64.toNat_ofNat_of_lt' (Nat.lt_of_add_right_lt hsize)
  have hheader := takes_header expected (helements ▸ Nat.le_add_left 2 t.size) t.size.toUInt64 t.loadFactor
  rw [helements, hdeclared, ← List.append_assoc] at hheader
  rw [Table.encode, List.length_append] at hn
  rw [Table.encode, decodeForm]
  by_cases hcut : n < (wordBytes (t.size + 2).toUInt64 ++ wordBytes t.size.toUInt64 ++
      halfWordBytes t.loadFactor.bits).length
  · left
    rw [List.take_append_of_le_length (Nat.le_of_lt hcut), hheader.run_take hcut]
    rfl
  · right
    rw [List.take_append, List.take_of_length_le (Nat.not_lt.mp hcut), hheader.run_append]
    obtain ⟨read, hread⟩ := decodePairs_take hframed (Nat.sub_lt_left_of_lt_add (Nat.not_lt.mp hcut) hn) []
    rw [hlength] at hread
    refine ⟨read, ?_⟩
    show Except.ok (t.size + 2, (⟨t.size, t.loadFactor, (decodePairs t.size _ []).1, (decodePairs t.size _ []).2, none⟩ :
      Form K V CodecError)) = _
    rw [hread]

end Forms

namespace Table

variable {K V : Type} [BEq K]

/-- A broken pair is reported before the pairs are counted. -/
theorem build_of_broken {ε : Type} {refused : TableError → ε} {hash : K → UInt64} {declared : Nat} {hint : Option Nat}
    {lf : LoadFactor} {id : Nat} {first : Table K V} (hready : readyFor hash (presize declared hint) lf id = .ok first)
    (pairs : List (K × V)) (e : ε) (trailing : Option ε) :
    (⟨declared, lf, pairs, some e, trailing⟩ : Form K V ε).build refused hash hint id = .error e := by
  rw [Form.build, hready]
  rfl

variable [EquivBEq K] [BinaryCodec K] [BinaryCodec V]

/-- What a table wrote is never read as a table when it is cut short: both readers run out of bytes, wherever the cut is. An element of `2 ^ 64` bytes or more is not found in any memory, and no word could say how long it is. -/
theorem strict_prefix_runs_out (hkeys : ElementKind K) (hvalues : ElementKind V) {t : Table K V} (ht : t.Reachable)
    (hcount : t.size ≤ 2 ^ 24)
    (hfits : ∀ p ∈ t.toList, (BinaryCodec.encode p.1).length < 2 ^ 64 ∧ (BinaryCodec.encode p.2).length < 2 ^ 64)
    {cut : List UInt8} (hbegins : cut <+: t.encode) (hstrict : cut ≠ t.encode) (hash : K → UInt64) (id : Nat) :
    (readFrom hash cut id : Except ReadError (Table K V)) = .error (.codec .outOfBytes) ∧
      (decode hash cut id : Except CodecError (Table K V)) = .error .outOfBytes := by
  have hsound := sound_of_reachable ht
  have hlength := hsound.layout.length_toList
  have hframed : ∀ p ∈ t.toList, Framed p.1 ∧ Framed p.2 := by
    intro p hp
    exact ⟨hkeys.framed (hfits p hp).1, hvalues.framed (hfits p hp).2⟩
  have hshort : cut.length < t.encode.length := by
    apply Nat.lt_of_le_of_ne hbegins.length_le
    exact fun h => hstrict (hbegins.eq_of_length h)
  rw [List.prefix_iff_eq_take.mp hbegins]
  have hform (expected : Expected) := decodeForm_take expected hlength (by omega) hframed hshort
  constructor
  · rcases hform .persistedTable with h | ⟨pairs, h⟩ <;> rw [readFrom, h] <;> rfl
  · rcases hform .parts with h | ⟨pairs, h⟩
    · rw [decode, h]
      rfl
    · have hle : presize t.size (hintAfterHeader (t.size + 2)) ≤ t.size := Nat.min_le_left _ _
      have hroom := two_mul_le_maxCapacity (hle.trans hcount)
      -- The header is the table's own, so a table is made ready from it and the broken pair is the first fault.
      obtain ⟨c, -, hready⟩ := exists_readyFor (V := V) hsound.loadFactor_isValid hroom hash id
      rw [decode, h]
      exact build_of_broken hready pairs CodecError.outOfBytes none

/-- A cut before the last byte of the last text, after keys that collide. -/
theorem strict_prefix_runs_out_inside_text : ∃ t : Table TaggedKey String,
    t.toList.map (fun p => (p.1.hash, p.1.id, p.2)) = [(7, 1, "one"), (7, 2, "two")] ∧ t.encode.length = 74 ∧
    (readFrom TaggedKey.id (t.encode.take 73) 1 : Except ReadError (Table TaggedKey String)) = .error (.codec .outOfBytes) ∧
      (decode TaggedKey.id (t.encode.take 73) 1 : Except CodecError (Table TaggedKey String)) = .error .outOfBytes := by
  obtain ⟨t, ht⟩ : ∃ t : Table TaggedKey String,
    t = (build TaggedKey.hash .standard 0).extend [(⟨7, 1⟩, "one"), (⟨7, 2⟩, "two")] := ⟨_, rfl⟩
  have hreachable : t.Reachable := ht ▸ .made (.collect _ _ _)
  have hpairs : t.toList.map (fun p => (p.1.hash, p.1.id, p.2)) = [(7, 1, "one"), (7, 2, "two")] := by
    rw [ht]
    decide +kernel
  have hsize : t.size = 2 := by
    rw [ht]
    decide +kernel
  have hlength : t.encode.length = 74 := by
    rw [ht]
    decide +kernel
  have hfits : ∀ p ∈ t.toList,
      (BinaryCodec.encode p.1).length < 2 ^ 64 ∧ (BinaryCodec.encode p.2).length < 2 ^ 64 := by
    rw [ht]
    decide +kernel
  have hstrict : t.encode.take 73 ≠ t.encode := by
    intro h
    have hcut := congrArg List.length h
    rw [List.length_take, hlength] at hcut
    cases hcut
  have hbegins : t.encode.take 73 <+: t.encode := List.take_prefix 73 t.encode
  exact ⟨t, hpairs, hlength, strict_prefix_runs_out .tagged .text hreachable (by rw [hsize]; decide) hfits hbegins
    hstrict TaggedKey.id 1⟩

end Table

end FlatTable

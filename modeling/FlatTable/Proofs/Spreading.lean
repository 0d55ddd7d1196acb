import FlatTable.Proofs.Reachable
import Mathlib.Logic.Function.Iterate

/-!
# Spreading keeps the fold

A mixing step combines a word with two copies of it that are shifted down. A step done twice is the step with both distances doubled, since what is shifted once by each of them cancels. After some doublings both copies are shifted out of the word and the step does nothing, so it is undone by repeating it. Hence mixing is a bijection of words: two hashes are spread alike exactly if their folds are the same, and a cached hash tells keys apart as their folds would.
-/

namespace FlatTable

/-! ### Mixing steps -/

section Steps

variable {width : Nat} {i j : Nat}

/-- A word combined with its copies shifted down by `i` and by `j` bits. -/
def shiftXor (i j : Nat) (x : BitVec width) : BitVec width := x ^^^ x >>> i ^^^ x >>> j

theorem shiftXor_shiftXor (i j : Nat) (x : BitVec width) :
    shiftXor i j (shiftXor i j x) = shiftXor (i + i) (j + j) x := by
  calc shiftXor i j (shiftXor i j x)
      = (x ^^^ x >>> i ^^^ x >>> j) ^^^ (x >>> i ^^^ x >>> (i + i) ^^^ x >>> (j + i)) ^^^
          (x >>> j ^^^ x >>> (i + j) ^^^ x >>> (j + j)) := by
        simp only [shiftXor, BitVec.ushiftRight_xor_distrib, BitVec.shiftRight_add]
    _ = shiftXor (i + i) (j + j) x ^^^
          ((x >>> i ^^^ x >>> i) ^^^ (x >>> j ^^^ x >>> j) ^^^ (x >>> (i + j) ^^^ x >>> (i + j))) := by
        rw [shiftXor, Nat.add_comm j i]
        ac_rfl
    _ = shiftXor (i + i) (j + j) x := by
        simp only [BitVec.xor_self, BitVec.xor_zero]

theorem iterate_shiftXor (i j n : Nat) :
    (shiftXor i j : BitVec width → BitVec width)^[2 ^ n] = shiftXor (2 ^ n * i) (2 ^ n * j) := by
  induction n with
  | zero => rw [Nat.pow_zero, Function.iterate_one, Nat.one_mul, Nat.one_mul]
  | succ n ih =>
    funext x
    rw [Nat.pow_succ, Nat.mul_two, Function.iterate_add_apply, ih, shiftXor_shiftXor, Nat.add_mul, Nat.add_mul]

theorem shiftXor_of_le (hi : width ≤ i) (hj : width ≤ j) (x : BitVec width) : shiftXor i j x = x := by
  rw [shiftXor, BitVec.ushiftRight_eq_zero hi, BitVec.ushiftRight_eq_zero hj, BitVec.xor_zero, BitVec.xor_zero]

theorem iterate_shiftXor_eq_id (hi : 0 < i) (hj : 0 < j) :
    (shiftXor i j : BitVec width → BitVec width)^[2 ^ width] = id := by
  -- Doubled once for each bit of the width, any distance has passed the width.
  have hout {d : Nat} (hd : 0 < d) : width ≤ 2 ^ width * d :=
    Nat.lt_two_pow_self.le.trans (Nat.le_mul_of_pos_right _ hd)
  rw [iterate_shiftXor]
  funext x
  exact shiftXor_of_le (hout hi) (hout hj) x

/-- A step that shifts both copies loses nothing, whatever the distances and the width. -/
theorem shiftXor_bijective (hi : 0 < i) (hj : 0 < j) :
    Function.Bijective (shiftXor i j : BitVec width → BitVec width) := by
  have hid : (shiftXor i j : BitVec width → BitVec width)^[2 ^ width] = id := iterate_shiftXor_eq_id hi hj
  obtain ⟨n, hn⟩ := Nat.exists_eq_add_one.mpr (Nat.two_pow_pos width)
  rw [hn] at hid
  constructor
  · apply Function.Injective.of_comp (f := (shiftXor i j)^[n])
    rw [← Function.iterate_succ, hid]
    exact Function.injective_id
  · apply Function.Surjective.of_comp (g := (shiftXor i j)^[n])
    rw [← Function.iterate_succ', hid]
    exact Function.surjective_id

end Steps

/-! ### Hashes -/

theorem toBitVec_mix (x : UInt32) : (mix x).toBitVec = shiftXor 7 4 (shiftXor 20 12 x.toBitVec) := by
  simp [mix, shiftXor, BitVec.xor_assoc]

theorem mix_bijective : Function.Bijective mix := by
  have hbits : Function.Bijective UInt32.toBitVec :=
    ⟨fun _ _ => UInt32.toBitVec_inj.mp, fun x => ⟨⟨x⟩, rfl⟩⟩
  have hfirst : Function.Bijective (shiftXor 20 12 : BitVec 32 → BitVec 32) :=
    shiftXor_bijective (by decide) (by decide)
  have hsecond : Function.Bijective (shiftXor 7 4 : BitVec 32 → BitVec 32) :=
    shiftXor_bijective (by decide) (by decide)
  have hmix : UInt32.toBitVec ∘ mix = shiftXor 7 4 ∘ shiftXor 20 12 ∘ UInt32.toBitVec := funext toBitVec_mix
  apply (Function.Bijective.of_comp_iff' hbits mix).mp
  rw [hmix]
  exact hsecond.comp (hfirst.comp hbits)

/-- The lower half of a hash, combined with the upper one. -/
def xorFold (h : UInt64) : Nat := (h.toNat % 2 ^ 32) ^^^ (h.toNat / 2 ^ 32)

theorem toNat_fold (h : UInt64) : (fold h).toNat = xorFold h := by
  have hupper : (h >>> 32).toNat = h.toNat / 2 ^ 32 := by
    rw [UInt64.toNat_shiftRight]
    exact Nat.shiftRight_eq_div_pow h.toNat 32
  have hsmall : h.toNat / 2 ^ 32 < 2 ^ 32 := by
    have := h.toNat_lt
    omega
  rw [fold, UInt64.toUInt32_xor, UInt32.toNat_xor, UInt64.toNat_toUInt32, UInt64.toNat_toUInt32, hupper,
    Nat.mod_eq_of_lt hsmall, xorFold]

theorem spread_eq_iff {a b : UInt64} : spread a = spread b ↔ xorFold a = xorFold b := by
  rw [spread, spread, mix_bijective.injective.eq_iff, ← toNat_fold, ← toNat_fold, UInt32.toNat_inj]

/-! ### Cached hashes -/

section Cached

variable {K V : Type} [BEq K] {t : Table K V} {b : Bucket K V}

theorem hash_eq_iff (h : t.LayoutInvariant) (hb : b ∈ t.buckets) (k : K) :
    b.hash = t.spreadHash k ↔ xorFold (t.hash b.key) = xorFold (t.hash k) := by
  rw [h.hashed b hb]
  exact spread_eq_iff

theorem isFor_iff (h : t.LayoutInvariant) (hb : b ∈ t.buckets) (k : K) :
    b.isFor (t.spreadHash k) k = true ↔ xorFold (t.hash b.key) = xorFold (t.hash k) ∧ (b.key == k) = true := by
  rw [Bucket.isFor, Bool.and_eq_true, beq_iff_eq, hash_eq_iff h hb]

end Cached

/-- Spread hashes separate what the folds of the hashes separate, and so do those that the buckets of a table keep. -/
theorem spread_separates_folds :
    (∀ a b : UInt64, spread a = spread b ↔ xorFold a = xorFold b) ∧ Function.Bijective mix ∧
      ∀ {K V : Type} [BEq K] [EquivBEq K] {t : Table K V}, t.Reachable → ∀ b ∈ t.buckets, ∀ k,
        (b.hash = t.spreadHash k ↔ xorFold (t.hash b.key) = xorFold (t.hash k)) ∧
          (b.isFor (t.spreadHash k) k = true ↔
            xorFold (t.hash b.key) = xorFold (t.hash k) ∧ (b.key == k) = true) := by
  refine ⟨fun _ _ => spread_eq_iff, mix_bijective, ?_⟩
  intro K V _ _ t hreachable b hb k
  have hlayout := (Table.sound_of_reachable hreachable).layout
  exact ⟨hash_eq_iff hlayout hb k, isFor_iff hlayout hb k⟩

/-- The keys `1` and `2 ^ 32` hash apart and fold alike; `3` is told from them by its fold. -/
theorem spread_separates_folds_halves : ∃ (t : Table Nat Nat) (b : Bucket Nat Nat),
    t = (Table.build UInt64.ofNat .standard 0).extend [(1, 10), (4294967296, 20)] ∧ t.Reachable ∧
      b ∈ t.buckets ∧ b.key = 1 ∧ t.hash 4294967296 ≠ t.hash 1 ∧ b.hash = t.spreadHash 4294967296 ∧
      ¬b.isFor (t.spreadHash 4294967296) 4294967296 ∧ b.hash ≠ t.spreadHash 3 := by
  obtain ⟨t, ht⟩ : ∃ t : Table Nat Nat,
    t = (Table.build UInt64.ofNat .standard 0).extend [(1, 10), (4294967296, 20)] := ⟨_, rfl⟩
  have hreachable : t.Reachable := by
    rw [ht]
    exact .made (.collect UInt64.ofNat [(1, 10), (4294967296, 20)] 0)
  have hhash : t.hash = UInt64.ofNat := by
    rw [ht]
    exact (Table.keeps_extend _ _).hash
  obtain ⟨b, hb, hkey⟩ : ∃ b ∈ t.buckets, b.key = 1 := by
    rw [← List.mem_map, ht]
    decide +kernel
  obtain ⟨-, -, hcached⟩ := spread_separates_folds
  have hlarge := hcached hreachable b hb 4294967296
  have hthree := hcached hreachable b hb 3
  rw [hkey, hhash] at hlarge hthree
  refine ⟨t, b, ht, hreachable, hb, hkey, ?_, hlarge.1.mpr (by decide), ?_, ?_⟩
  · rw [hhash]
    decide
  · intro hfor
    exact absurd (hlarge.2.mp hfor).2 (by decide)
  · intro hsame
    exact absurd (hthree.1.mp hsame) (by decide)

end FlatTable

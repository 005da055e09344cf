/-
  Counting the bits of a word in parallel.

  The count adds neighbouring bits, pairs and nibbles within every byte, and sums the
  bytes with a multiplication.  A step that shifts and masks works on every byte alone if
  the mask drops what comes from the next byte (`shift_mask`).
-/
import Honas.Lib.Bits

namespace BitCount

open Bits

/-- The number of bits of a byte. -/
def bitCount (b : Byte) : ℕ := (List.range 8).countP b.getLsbD

/-- The number of bits of some bytes. -/
def bitCounts (bs : List Byte) : ℕ := (bs.map bitCount).sum

theorem bitCount_le (b : Byte) : bitCount b ≤ 8 := List.countP_le_length

theorem bitCounts_le (bs : List Byte) : bitCounts bs ≤ 8 * bs.length := by
  have h := List.sum_le_card_nsmul (bs.map bitCount) 8 fun n hn => by
    obtain ⟨b, -, rfl⟩ := List.mem_map.1 hn
    exact bitCount_le b
  rwa [List.length_map, smul_eq_mul, Nat.mul_comm] at h

theorem countBits_eq : ∀ bs : List Byte, countBits bs = bitCounts bs
  | [] => rfl
  | b :: bs => by
    have hb : countBits [b] = bitCount b :=
      List.countP_congr fun i hi => by
        have hi : i < 8 := List.mem_range.1 hi
        rw [bitAt, show i / 8 = 0 by omega, Nat.mod_eq_of_lt hi]
        rfl
    rw [← List.singleton_append, countBits_append, hb, countBits_eq bs]
    rfl

/-! ## In parallel -/

/-- Shifting and masking the lowest byte and the rest. -/
theorem shift_mask {x m : ℕ} (s : ℕ) (hx : x < 2 ^ 8) (hm : m * 2 ^ s < 2 ^ 8) (a n : ℕ) :
    (x + 256 * a) >>> s &&& (m + 256 * n) = (x >>> s &&& m) + 256 * (a >>> s &&& n) := by
  have hm8 : m < 2 ^ 8 := lt_of_le_of_lt (Nat.le_mul_of_pos_right m (by positivity)) hm
  have hlow : x >>> s &&& m < 2 ^ 8 := lt_of_le_of_lt Nat.and_le_right hm8
  refine Nat.eq_of_testBit_eq fun i => ?_
  rw [show (256 : ℕ) = 2 ^ 8 by rfl, Nat.add_comm m, Nat.add_comm x, Nat.add_comm (x >>> s &&& m),
    Nat.testBit_and, Nat.testBit_shiftRight, Nat.testBit_two_pow_mul_add _ hx,
    Nat.testBit_two_pow_mul_add _ hm8, Nat.testBit_two_pow_mul_add _ hlow]
  by_cases hi : i < 8
  · rw [if_pos hi, if_pos hi, Nat.testBit_and, Nat.testBit_shiftRight]
    by_cases hsi : s + i < 8
    · rw [if_pos hsi]
    · -- the bit comes from the next byte, and the mask has no such bit
      have hmi : m.testBit i = false := by
        refine Nat.testBit_eq_false_of_lt (lt_of_mul_lt_mul_right (hm.trans_le ?_)
          (Nat.zero_le (2 ^ s)))
        rw [← pow_add]
        exact Nat.pow_le_pow_right (by norm_num) (by omega)
      rw [hmi, Bool.and_false, Bool.and_false]
  · rw [if_neg hi, if_neg hi, if_neg (by omega), Nat.testBit_and, Nat.testBit_shiftRight,
      show s + i - 8 = s + (i - 8) by omega]

/-- The number with these four digits to the base 256. -/
def word (a b c d : ℕ) : ℕ := a + 256 * (b + 256 * (c + 256 * d))

theorem ofLE_four (a b c d : Byte) :
    ofLE [a, b, c, d] = word a.toNat b.toNat c.toNat d.toNat := rfl

theorem shift_mask_word {s m a b c d : ℕ} (hm : m * 2 ^ s < 2 ^ 8) (ha : a < 2 ^ 8) (hb : b < 2 ^ 8)
    (hc : c < 2 ^ 8) : word a b c d >>> s &&& word m m m m =
      word (a >>> s &&& m) (b >>> s &&& m) (c >>> s &&& m) (d >>> s &&& m) := by
  rw [word, word, word, shift_mask s ha hm, shift_mask s hb hm, shift_mask s hc hm]

/-- The bits of the pairs in a byte. -/
def pairBits (x : ℕ) : ℕ := x - (x >>> 1 &&& 0x55)

/-- The bits of the nibbles in a byte, from those of the pairs. -/
def nibbleBits (x : ℕ) : ℕ := (x &&& 0x33) + (x >>> 2 &&& 0x33)

theorem pairBits_le (b : Byte) : b.toNat >>> 1 &&& 0x55 ≤ b.toNat :=
  Nat.and_le_left.trans (Nat.shiftRight_le _ _)

/-- What the two nibbles count. -/
theorem nibbleBits_spec (b : Byte) : nibbleBits (pairBits b.toNat) % 16 ≤ 4 ∧
    nibbleBits (pairBits b.toNat) / 16 ≤ 4 ∧
    nibbleBits (pairBits b.toNat) % 16 + nibbleBits (pairBits b.toNat) / 16 = bitCount b := by
  revert b
  decide

/-- Adding the bits of the pairs of a word. -/
theorem pairs_word (a b c d : Byte) : word a.toNat b.toNat c.toNat d.toNat -
      (word a.toNat b.toNat c.toNat d.toNat >>> 1 &&& word 0x55 0x55 0x55 0x55) =
    word (pairBits a.toNat) (pairBits b.toNat) (pairBits c.toNat) (pairBits d.toNat) := by
  rw [shift_mask_word (by norm_num) a.isLt b.isLt c.isLt]
  have ha := pairBits_le a
  have hb := pairBits_le b
  have hc := pairBits_le c
  have hd := pairBits_le d
  simp only [word, pairBits]
  omega

/-- Adding the bits of the nibbles of a word. -/
theorem nibbles_word {a b c d : ℕ} (ha : a < 2 ^ 8) (hb : b < 2 ^ 8) (hc : c < 2 ^ 8) :
    (word a b c d &&& word 0x33 0x33 0x33 0x33) + (word a b c d >>> 2 &&& word 0x33 0x33 0x33 0x33) =
      word (nibbleBits a) (nibbleBits b) (nibbleBits c) (nibbleBits d) := by
  have h0 := shift_mask_word (s := 0) (m := 0x33) (d := d) (by norm_num) ha hb hc
  simp only [Nat.shiftRight_zero] at h0
  rw [h0, shift_mask_word (by norm_num) ha hb hc]
  simp only [word, nibbleBits]
  omega

/-- Adding the two nibbles of every byte. -/
theorem bytes_word {a b c d : ℕ} (ha : a % 16 ≤ 4 ∧ a / 16 ≤ 4) (hb : b % 16 ≤ 4 ∧ b / 16 ≤ 4)
    (hc : c % 16 ≤ 4 ∧ c / 16 ≤ 4) (hd : d % 16 ≤ 4 ∧ d / 16 ≤ 4) :
    (word a b c d + word a b c d >>> 4) &&& word 0x0f 0x0f 0x0f 0x0f =
      word (a % 16 + a / 16) (b % 16 + b / 16) (c % 16 + c / 16) (d % 16 + d / 16) := by
  -- the low nibbles of the next byte are added to the high nibbles, which are dropped
  have hsum : word a b c d + word a b c d >>> 4 = word (a + a / 16 + 16 * (b % 16))
      (b + b / 16 + 16 * (c % 16)) (c + c / 16 + 16 * (d % 16)) (d + d / 16) := by
    rw [Nat.shiftRight_eq_div_pow]
    simp only [word]
    omega
  have hmask := shift_mask_word (s := 0) (m := 0x0f) (d := d + d / 16) (by norm_num)
    (show a + a / 16 + 16 * (b % 16) < 2 ^ 8 by omega)
    (show b + b / 16 + 16 * (c % 16) < 2 ^ 8 by omega)
    (show c + c / 16 + 16 * (d % 16) < 2 ^ 8 by omega)
  simp only [Nat.shiftRight_zero] at hmask
  have hlow : ∀ {x : ℕ} (y : ℕ), x % 16 ≤ 4 ∧ x / 16 ≤ 4 →
      (x + x / 16 + 16 * y) &&& 0x0f = x % 16 + x / 16 := by
    intro x y hx
    rw [show (0x0f : ℕ) = 2 ^ 4 - 1 by norm_num, Nat.and_two_pow_sub_one_eq_mod]
    omega
  rw [hsum, hmask, hlow _ ha, hlow _ hb, hlow _ hc, ← Nat.add_zero (d + d / 16),
    ← Nat.mul_zero 16, hlow 0 hd]

/-- The top byte of the product is the sum of the bytes. -/
theorem sum_word {a b c d : ℕ} (h : a + b + c + d < 2 ^ 8) :
    word a b c d * 0x01010101 % 2 ^ 32 / 2 ^ 24 = a + b + c + d := by
  have hproduct : word a b c d * 0x01010101 = (a + 2 ^ 8 * (a + b) + 2 ^ 16 * (a + b + c)) +
      2 ^ 24 * (a + b + c + d) + 2 ^ 32 * ((b + c + d) + 2 ^ 8 * (c + d) + 2 ^ 16 * d) := by
    rw [word]; ring
  have hlow : a + 2 ^ 8 * (a + b) + 2 ^ 16 * (a + b + c) < 2 ^ 24 := by omega
  rw [hproduct, Nat.add_mul_mod_self_left, Nat.mod_eq_of_lt (by omega),
    Nat.add_mul_div_left _ _ (by norm_num), Nat.div_eq_of_lt hlow, Nat.zero_add]

end BitCount

/-
  The dense registers of a HyperLogLog.

  Register `r` is the six bits from bit `6 r` of the byte string: reading and
  writing a register, and combining two dense encodings with a bitwise or, are
  described by these bits.  In particular an or of two encodings computes the
  bitwise or of the registers, which is their maximum only if the digits of
  one are among those of the other.
-/
import Honas.Hyperloglog

namespace Honas

open Bits

theorem testBit_registerMax (t : ℕ) : hllRegisterMax.testBit t = decide (t < 6) := by
  rw [show hllRegisterMax = 2 ^ 6 - 1 by rfl, Nat.testBit_two_pow_sub_one]

theorem testBit_byte {b : Byte} {t : ℕ} (ht : 8 ≤ t) : b.toNat.testBit t = false := by
  rw [BitVec.testBit_toNat]; exact BitVec.getLsbD_of_ge b t ht

/-- **The bits of a register.** -/
theorem testBit_hllDenseGetRegister (p : List Byte) (r t : ℕ) :
    (hllDenseGetRegister p r).testBit t = (decide (t < 6) && bitAt p (6 * r + t)) := by
  have hq : r * hllBits / 8 * 8 + r * hllBits % 8 = 6 * r := by unfold hllBits; omega
  simp only [hllDenseGetRegister]
  have hfb : r * hllBits % 8 < 8 := Nat.mod_lt _ (by decide)
  generalize r * hllBits / 8 = q at *
  generalize r * hllBits % 8 = fb at *
  rw [Nat.testBit_and, testBit_registerMax, Nat.testBit_or, Nat.testBit_shiftRight,
    Nat.testBit_shiftLeft, Bool.and_comm]
  by_cases ht : t < 6
  · congr 1
    by_cases hlow : fb + t < 8
    · rw [show 6 * r + t = 8 * q + (fb + t) by omega, bitAt_mul_add _ _ _ hlow,
        BitVec.testBit_toNat]
      simp [show ¬ 8 - fb ≤ t by omega]
    · rw [show 6 * r + t = 8 * (q + 1) + (t - (8 - fb)) by omega,
        bitAt_mul_add _ _ _ (by omega), testBit_byte (by omega), BitVec.testBit_toNat]
      simp [show 8 - fb ≤ t by omega]
  · simp [ht]

theorem hllDenseGetRegister_lt (p : List Byte) (r : ℕ) : hllDenseGetRegister p r < 64 :=
  Nat.lt_of_le_of_lt Nat.and_le_right (by decide)

theorem hllDenseGetRegister_congr {p p' : List Byte} {r : ℕ}
    (h : ∀ i, 6 * r ≤ i → i < 6 * r + 6 → bitAt p i = bitAt p' i) :
    hllDenseGetRegister p r = hllDenseGetRegister p' r := by
  refine Nat.eq_of_testBit_eq fun t => ?_
  rw [testBit_hllDenseGetRegister, testBit_hllDenseGetRegister]
  by_cases ht : t < 6
  · rw [h (6 * r + t) (by omega) (by omega)]
  · simp [ht]

/-- Clearing the bits of a mask in a byte and setting those of a value. -/
theorem getLsbD_clear_or (x : Byte) (mask val : ℕ) {j : ℕ} (hj : j < 8) :
    (x &&& ~~~BitVec.ofNat 8 mask ||| BitVec.ofNat 8 val).getLsbD j =
      ((x.getLsbD j && !mask.testBit j) || val.testBit j) := by
  rw [BitVec.getLsbD_or, BitVec.getLsbD_and, BitVec.getLsbD_not, BitVec.getLsbD_ofNat,
    BitVec.getLsbD_ofNat, decide_eq_true hj, Bool.true_and, Bool.true_and, Bool.true_and]

/-- **Writing a register changes its six bits.** -/
theorem bitAt_hllDenseSetRegister {p : List Byte} {r v : ℕ} (hv : v < 64)
    (hp : 6 * r / 8 + 1 < p.length) (i : ℕ) :
    bitAt (hllDenseSetRegister p r v) i =
      if 6 * r ≤ i ∧ i < 6 * r + 6 then v.testBit (i - 6 * r) else bitAt p i := by
  have hq : r * hllBits / 8 = 6 * r / 8 := by unfold hllBits; congr 1; omega
  have hm : 6 * r / 8 * 8 + r * hllBits % 8 = 6 * r := by unfold hllBits; omega
  have hfb : r * hllBits % 8 < 8 := Nat.mod_lt _ (by decide)
  simp only [hllDenseSetRegister, hq]
  generalize 6 * r / 8 = q at *
  generalize r * hllBits % 8 = fb at *
  have hget : ∀ (b : Byte) (j : ℕ), j < p.length → (p.set j b).getD j 0 = b := by
    intro b j hj; simp [hj]
  have hget' : ∀ b : Byte, (p.set q b).getD (q + 1) 0 = p.getD (q + 1) 0 := by
    intro b; simp
  have hvlt : ∀ t, 6 ≤ t → v.testBit t = false := fun t ht =>
    Nat.testBit_lt_two_pow (lt_of_lt_of_le hv (Nat.pow_le_pow_right (show 0 < 2 by decide) ht))
  rw [hget _ _ (by omega), List.set_set, List.set_set]
  have hset : ∀ b b' : Byte, ((p.set q b).set (q + 1) b').getD (q + 1) 0 = b' := by
    intro b b'; simp [hp]
  rw [hset, hget', bitAt_set, bitAt_set, List.length_set]
  have hj : i % 8 < 8 := Nat.mod_lt _ (by decide)
  by_cases h1 : i / 8 = q + 1
  · rw [if_pos ⟨h1, hp⟩, getLsbD_clear_or _ _ _ hj, Nat.testBit_shiftRight, Nat.testBit_shiftRight,
      testBit_registerMax, ← h1]
    by_cases hi : 6 * r ≤ i ∧ i < 6 * r + 6
    · rw [if_pos hi, decide_eq_true (show 8 - fb + i % 8 < 6 by omega),
        show i - 6 * r = 8 - fb + i % 8 by omega]
      simp
    · rw [if_neg hi, decide_eq_false (show ¬ 8 - fb + i % 8 < 6 by omega), hvlt _ (by omega)]
      simp [bitAt]
  · rw [if_neg (fun h => h1 h.1)]
    by_cases h0 : i / 8 = q
    · rw [if_pos ⟨h0, by omega⟩, getLsbD_clear_or _ _ _ hj, Nat.testBit_shiftLeft,
        Nat.testBit_shiftLeft, testBit_registerMax, ← h0]
      by_cases hi : 6 * r ≤ i ∧ i < 6 * r + 6
      · rw [if_pos hi, decide_eq_true (show fb ≤ i % 8 by omega),
          decide_eq_true (show i % 8 - fb < 6 by omega), show i - 6 * r = i % 8 - fb by omega]
        simp
      · rw [if_neg hi]
        by_cases hle : fb ≤ i % 8
        · rw [decide_eq_false (show ¬ i % 8 - fb < 6 by omega), hvlt _ (show 6 ≤ i % 8 - fb by omega)]
          simp [bitAt]
        · simp [hle, bitAt]
    · rw [if_neg (fun h => h0 h.1), if_neg (by omega)]

@[simp] theorem length_hllDenseSetRegister (p : List Byte) (r v : ℕ) :
    (hllDenseSetRegister p r v).length = p.length := by
  simp [hllDenseSetRegister]

/-- Reading a register after a write. -/
theorem hllDenseGetRegister_set {p : List Byte} {r v : ℕ} (hv : v < 64)
    (hp : 6 * r / 8 + 1 < p.length) (r' : ℕ) :
    hllDenseGetRegister (hllDenseSetRegister p r v) r' =
      if r' = r then v else hllDenseGetRegister p r' := by
  split_ifs with h
  · subst h
    refine Nat.eq_of_testBit_eq fun t => ?_
    rw [testBit_hllDenseGetRegister, bitAt_hllDenseSetRegister hv hp]
    by_cases ht : t < 6
    · rw [if_pos (by omega), show 6 * r' + t - 6 * r' = t by omega]; simp [ht]
    · rw [Nat.testBit_lt_two_pow (lt_of_lt_of_le hv
        (Nat.pow_le_pow_right (show 0 < 2 by decide) (show 6 ≤ t by omega)))]
      simp [ht]
  · refine hllDenseGetRegister_congr fun i h1 h2 => ?_
    rw [bitAt_hllDenseSetRegister hv hp, if_neg (by omega)]

/-- **A bitwise or of dense encodings is the bitwise or of the registers.** -/
theorem hllDenseGetRegister_orBytes {a b : List Byte} {r : ℕ} (h : 6 * r + 6 ≤ 8 * a.length) :
    hllDenseGetRegister (orBytes a b) r = hllDenseGetRegister a r ||| hllDenseGetRegister b r := by
  refine Nat.eq_of_testBit_eq fun t => ?_
  rw [Nat.testBit_or]
  simp only [testBit_hllDenseGetRegister, bitAt_orBytes]
  by_cases ht : t < 6
  · simp [ht, show 6 * r + t < 8 * a.length by omega]
  · simp [ht]

/-! ## The pattern length -/

theorem hllPatLenLoop_bounds (hash : BitVec 64) : ∀ n count,
    count ≤ hllPatLenLoop hash n count ∧ hllPatLenLoop hash n count ≤ count + n
  | 0, count => by simp [hllPatLenLoop]
  | n + 1, count => by
    have ih := hllPatLenLoop_bounds hash n (count + 1)
    rw [hllPatLenLoop]; split_ifs <;> omega

theorem hllPatLen_pos (hash : BitVec 64) : 0 < (hllPatLen hash).1 :=
  (hllPatLenLoop_bounds _ _ 1).1

theorem hllPatLen_lt (hash : BitVec 64) : (hllPatLen hash).1 < 64 := by
  have := (hllPatLenLoop_bounds (hash ||| 1#64 <<< 63) (63 - hllP) 1).2
  simp only [hllPatLen]; unfold hllP at *; omega

theorem hllPatLen_index_lt (hash : BitVec 64) : (hllPatLen hash).2 < hllRegisters := by
  simp only [hllPatLen, BitVec.toNat_and]
  exact Nat.lt_of_le_of_lt Nat.and_le_right (by decide)

/-- `hllDenseAdd` raises one register to the pattern length. -/
theorem hllDenseAdd_spec {p : List Byte} (hp : p.length = hllDenseSize) (hash : BitVec 64) :
    (hllDenseAdd p hash).1.length = hllDenseSize ∧
      (hllDenseAdd p hash).2 = decide (hllDenseGetRegister p (hllPatLen hash).2 < (hllPatLen hash).1) ∧
      ∀ i, bitAt (hllDenseAdd p hash).1 i =
        if 6 * (hllPatLen hash).2 ≤ i ∧ i < 6 * (hllPatLen hash).2 + 6 then
          (max (hllDenseGetRegister p (hllPatLen hash).2) (hllPatLen hash).1).testBit
            (i - 6 * (hllPatLen hash).2)
        else bitAt p i := by
  have hidx := hllPatLen_index_lt hash
  have hcnt := hllPatLen_lt hash
  simp only [hllDenseAdd]
  generalize (hllPatLen hash).2 = r at *
  generalize (hllPatLen hash).1 = v at *
  have hr : 6 * r / 8 + 1 < p.length := by
    rw [hp]; unfold hllDenseSize hllRegisters hllBits at *; omega
  split_ifs with h
  · refine ⟨by simpa using hp, by simpa using h, fun i => ?_⟩
    rw [bitAt_hllDenseSetRegister hcnt hr, max_eq_right (le_of_lt h)]
  · refine ⟨hp, by simpa using h, fun i => ?_⟩
    split_ifs with hi
    · rw [max_eq_left (not_lt.1 h), testBit_hllDenseGetRegister, decide_eq_true (by omega),
        Bool.true_and, show 6 * r + (i - 6 * r) = i by omega]
    · rfl

end Honas

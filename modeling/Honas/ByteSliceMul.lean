/-
  Multiplying a byte slice in place (`include/byte_slice.h`).

  The portable versions (`byteSliceMul32`, `byteSliceMul64`) compute the
  product of a word and the multiplier in twice the width and increment the
  high half when adding the carry to the low half wraps; the assembler
  versions use `mul`, `add` and `adc`.

  `byteSliceMul_spec`: both widths compute the product, the increment never
  wraps, and the assembler versions compute the same.
-/
import Honas.ByteSlice

namespace Honas

open Bits

/-! ## The instructions -/

/-- `mul`: the high and the low half of the product (`edx`, `eax`). -/
def mulInstr {w : ℕ} (a src : BitVec w) : BitVec w × BitVec w :=
  (BitVec.ofNat w (a.toNat * src.toNat / 2 ^ w), BitVec.ofNat w (a.toNat * src.toNat))

/-- `add`: the sum and the carry flag. -/
def addInstr {w : ℕ} (dst src : BitVec w) : BitVec w × Bool :=
  (dst + src, decide (2 ^ w ≤ dst.toNat + src.toNat))

/-- `adc`: the sum with the carry flag. -/
def adcInstr {w : ℕ} (dst src : BitVec w) (cf : Bool) : BitVec w :=
  dst + src + BitVec.ofNat w cf.toNat

/-! ## The assembler versions -/

/-- The loop of `byte_slice_mul32_asm` (`b = 4`) and `byte_slice_mul64_asm`
    (`b = 8`). -/
def byteSliceMulAsmLoop (b : ℕ) (multiplier : BitVec (8 * b)) :
    ℕ → List Byte → BitVec (8 * b) → List Byte × BitVec (8 * b)
  | 0, _, overflow => ([], overflow)
  | n + 1, data, overflow =>
    let (mulHi, mulLo) := mulInstr multiplier (BitVec.ofNat (8 * b) (ofLE (data.take b)))
    let (mulLo, cf) := addInstr mulLo overflow
    let mulHi := adcInstr mulHi 0#(8 * b) cf
    let r := byteSliceMulAsmLoop b multiplier n (data.drop b) mulHi
    (toLE b mulLo.toNat ++ r.1, r.2)

/-- `byte_slice_mul32_asm`. -/
def byteSliceMul32Asm (bytes : List Byte) (multiplier : BitVec 32) :
    Option (List Byte × BitVec 32) :=
  if bytes.length % 4 = 0 then some (byteSliceMulAsmLoop 4 multiplier (bytes.length / 4) bytes 0)
  else none

/-- `byte_slice_mul64_asm`. -/
def byteSliceMul64Asm (bytes : List Byte) (multiplier : BitVec 64) :
    Option (List Byte × BitVec 64) :=
  if bytes.length % 8 = 0 then some (byteSliceMulAsmLoop 8 multiplier (bytes.length / 8) bytes 0)
  else none

/-! ## One round -/

theorem toLE_mod (b n : ℕ) : toLE b (n % 256 ^ b) = toLE b n := by
  have h := toLE_ofLE (toLE b n)
  rwa [length_toLE, ofLE_toLE] at h

theorem ofLE_take_lt (b : ℕ) (data : List Byte) : ofLE (data.take b) < 256 ^ b :=
  (ofLE_lt _).trans_le (Nat.pow_le_pow_right (by norm_num) (List.length_take_le _ _))

/-- `mul`, `add` and `adc $0`: the low half is the wrapped sum, the high half
    the incremented one. -/
theorem mul_add_adc {w : ℕ} (m x o : BitVec w) :
    (addInstr (mulInstr m x).2 o).1.toNat = (x.toNat * m.toNat % 2 ^ w + o.toNat) % 2 ^ w ∧
      (adcInstr (mulInstr m x).1 0#w (addInstr (mulInstr m x).2 o).2).toNat =
        if x.toNat * m.toNat % 2 ^ w + o.toNat > 2 ^ w - 1
        then (x.toNat * m.toNat / 2 ^ w % 2 ^ w + 1) % 2 ^ w
        else x.toNat * m.toNat / 2 ^ w % 2 ^ w := by
  have hw : 0 < 2 ^ w := Nat.two_pow_pos w
  simp only [mulInstr, addInstr, adcInstr, BitVec.add_zero, BitVec.toNat_add, BitVec.toNat_ofNat,
    Nat.mul_comm m.toNat, true_and]
  split_ifs with h
  · rw [decide_eq_true (by omega), Bool.toNat_true, Nat.add_mod_mod]
  · rw [decide_eq_false (by omega), Bool.toNat_false, Nat.zero_mod, Nat.add_zero, Nat.mod_mod]

/-- The assembler loop is the portable one, for any multiplier and carry. -/
theorem byteSliceMulAsmLoop_eq {b : ℕ} (m : BitVec (8 * b)) :
    ∀ (n : ℕ) (data : List Byte) (o : BitVec (8 * b)),
      byteSliceMulAsmLoop b m n data o =
        ((byteSliceMulLoop b m.toNat n data o.toNat).1,
          BitVec.ofNat (8 * b) (byteSliceMulLoop b m.toNat n data o.toNat).2)
  | 0, _, o => by simp [byteSliceMulAsmLoop, byteSliceMulLoop]
  | n + 1, data, o => by
    have hB : 256 ^ b = 2 ^ (8 * b) := by rw [pow_mul]; rfl
    have hx : (BitVec.ofNat (8 * b) (ofLE (data.take b))).toNat = ofLE (data.take b) := by
      rw [BitVec.toNat_ofNat, ← hB, Nat.mod_eq_of_lt (ofLE_take_lt b data)]
    obtain ⟨hlo, hhi⟩ := mul_add_adc m (BitVec.ofNat (8 * b) (ofLE (data.take b))) o
    rw [hx, ← hB] at hlo hhi
    simp only [byteSliceMulAsmLoop, byteSliceMulLoop]
    rw [byteSliceMulAsmLoop_eq m n, hhi, hlo, toLE_mod]

theorem byteSliceMul32Asm_eq (bytes : List Byte) (m : BitVec 32) :
    byteSliceMul32Asm bytes m =
      (byteSliceMul32 bytes m.toNat).map fun r => (r.1, BitVec.ofNat 32 r.2) := by
  have h := @byteSliceMulAsmLoop_eq 4 m (bytes.length / 4) bytes 0
  unfold byteSliceMul32Asm byteSliceMul32
  split_ifs
  · exact congrArg some h
  · rfl

theorem byteSliceMul64Asm_eq (bytes : List Byte) (m : BitVec 64) :
    byteSliceMul64Asm bytes m =
      (byteSliceMul64 bytes m.toNat).map fun r => (r.1, BitVec.ofNat 64 r.2) := by
  have h := @byteSliceMulAsmLoop_eq 8 m (bytes.length / 8) bytes 0
  unfold byteSliceMul64Asm byteSliceMul64
  split_ifs
  · exact congrArg some h
  · rfl

/-! ## The increment of the high half -/

/-- The portable loop with a checked increment: it stops where `mul_hi++`
    would wrap. -/
def byteSliceMulLoopChecked (b multiplier : ℕ) : ℕ → List Byte → ℕ → Option (List Byte × ℕ)
  | 0, _, overflow => some ([], overflow)
  | n + 1, data, overflow => do
    let tmp := ofLE (data.take b) * multiplier
    let mulLo := tmp % 256 ^ b
    let mulHi := tmp / 256 ^ b % 256 ^ b
    let tmp := mulLo + overflow
    let mulHi ←
      if tmp > 256 ^ b - 1 then
        if mulHi + 1 < 256 ^ b then some (mulHi + 1) else none
      else some mulHi
    let r ← byteSliceMulLoopChecked b multiplier n (data.drop b) mulHi
    some (toLE b tmp ++ r.1, r.2)

/-- The high half of a product with a word is below the multiplier. -/
theorem mul_hi_lt {B x m : ℕ} (hx : x < B) (hm : m ≤ B) (h0 : 0 < m) : x * m / B < m :=
  (mul_round hx h0 hm).2

/-- **The increment never wraps**: the loop that checks it runs to the end,
    with the same result. -/
theorem byteSliceMulLoopChecked_eq {b m : ℕ} (h0 : 0 < m) (hm : m < 256 ^ b) :
    ∀ (n : ℕ) (data : List Byte) (o : ℕ),
      byteSliceMulLoopChecked b m n data o = some (byteSliceMulLoop b m n data o)
  | 0, _, _ => rfl
  | n + 1, data, o => by
    have hhi : ofLE (data.take b) * m / 256 ^ b < m := mul_hi_lt (ofLE_take_lt b data) hm.le h0
    have hmod : ofLE (data.take b) * m / 256 ^ b % 256 ^ b + 1 < 256 ^ b := by
      rw [Nat.mod_eq_of_lt (hhi.trans hm)]
      omega
    simp only [byteSliceMulLoopChecked, byteSliceMulLoop]
    split_ifs
    · rw [Nat.mod_eq_of_lt hmod, Option.bind_eq_bind, Option.bind_some,
        byteSliceMulLoopChecked_eq h0 hm n]
      rfl
    · rw [Option.bind_eq_bind, Option.bind_some, byteSliceMulLoopChecked_eq h0 hm n]
      rfl

/-! ## The product -/

/-- What a multiplication in place by `b`-byte words has to do: leave the
    product modulo the size of the slice, return what is above it, and never
    wrap the high half. -/
structure MulsInPlace (b : ℕ) (mul : List Byte → ℕ → Option (List Byte × ℕ)) : Prop where
  product : ∀ (bytes : List Byte) (m : BitVec (8 * b)), bytes.length % b = 0 → 0 < m.toNat →
    ∃ bytes' o, mul bytes m.toNat = some (bytes', o) ∧ bytes'.length = bytes.length ∧
      o * 2 ^ (8 * bytes.length) + ofLE bytes' = ofLE bytes * m.toNat ∧ o < m.toNat
  increment : ∀ (bytes : List Byte) (m : BitVec (8 * b)), bytes.length % b = 0 → 0 < m.toNat →
    mul bytes m.toNat = byteSliceMulLoopChecked b m.toNat (bytes.length / b) bytes 0

theorem mulsInPlace_of_loop {b : ℕ} {mul : List Byte → ℕ → Option (List Byte × ℕ)}
    (h : ∀ bytes m, bytes.length % b = 0 →
      mul bytes m = some (byteSliceMulLoop b m (bytes.length / b) bytes 0)) :
    MulsInPlace b mul := by
  have hpow : ∀ n, 256 ^ n = 2 ^ (8 * n) := fun n => by rw [pow_mul]; rfl
  have hlt : ∀ m : BitVec (8 * b), m.toNat < 256 ^ b := fun m => by
    rw [hpow]
    exact m.isLt
  refine ⟨fun bytes m hl h0 => ?_, fun bytes m hl h0 => ?_⟩
  · have hn : bytes.length = bytes.length / b * b :=
      (Nat.div_mul_cancel (Nat.dvd_of_mod_eq_zero hl)).symm
    refine ⟨_, _, h bytes _ hl, ?_, ?_, byteSliceMulLoop_lt (hlt m).le _ _ _ hn.ge h0⟩
    · rw [byteSliceMulLoop_length, ← hn]
    · have he := byteSliceMulLoop_ofLE (hlt m).le (bytes.length / b) bytes 0 hn h0
      rw [← hn, Nat.add_zero, hpow] at he
      rw [← he]
      ring
  · rw [h bytes _ hl, byteSliceMulLoopChecked_eq h0 (hlt m)]

/-- **Multiplication in place** computes the product with words of 32 and of
    64 bits, and the assembler versions do what the portable ones do. -/
theorem byteSliceMul_spec :
    MulsInPlace 4 byteSliceMul32 ∧ MulsInPlace 8 byteSliceMul64 ∧
      (∀ (bytes : List Byte) (m : BitVec 32), byteSliceMul32Asm bytes m =
        (byteSliceMul32 bytes m.toNat).map fun r => (r.1, BitVec.ofNat 32 r.2)) ∧
      ∀ (bytes : List Byte) (m : BitVec 64), byteSliceMul64Asm bytes m =
        (byteSliceMul64 bytes m.toNat).map fun r => (r.1, BitVec.ofNat 64 r.2) :=
  ⟨mulsInPlace_of_loop fun _ _ h => by rw [byteSliceMul32, if_pos h],
    mulsInPlace_of_loop fun _ _ h => by rw [byteSliceMul64, if_pos h],
    byteSliceMul32Asm_eq, byteSliceMul64Asm_eq⟩

end Honas

/-
  Byte slices (`include/byte_slice.h`, `src/byte_slice.c`).

  A slice is its address and its bytes.  The address only matters modulo the
  word size: `byte_slice_bitwise_or`, `byte_slice_bitwise_and` and
  `byte_slice_popcount` work on single bytes up to the first aligned address
  and after the last one, and on whole words between them.  A function that
  asserts something about its arguments returns `none` when the assertion
  fails.

  `byteSliceBitwiseOr_eq` and `byteSliceBitwiseAnd_eq`: the word-wise code
  computes the byte-wise operation.
-/
import Honas.Lib.Bits

namespace Honas

open Bits

/-- `byte_slice_t`: the address of the first byte, and the bytes. -/
structure ByteSlice where
  addr : ℕ
  bytes : List Byte

namespace ByteSlice

/-- `slice.len`. -/
def len (s : ByteSlice) : ℕ := s.bytes.length

end ByteSlice

/-- `sizeof(size_t)`. -/
def sizeofSizeT : ℕ := 8

/-! ## Single bits -/

/-- `byte_slice_set_bit`. -/
def byteSliceSetBit (slice : ByteSlice) (bit : ℕ) : Option ByteSlice :=
  if slice.len > bit / 8 then some { slice with bytes := setBit slice.bytes bit } else none

/-- `byte_slice_set_bits`. -/
def byteSliceSetBits (slice : ByteSlice) (bits : List ℕ) : Option ByteSlice :=
  bits.foldlM byteSliceSetBit slice

/-- `byte_slice_unset_bit`. -/
def byteSliceUnsetBit (slice : ByteSlice) (bit : ℕ) : Option ByteSlice :=
  if slice.len > bit / 8 then some { slice with bytes := clearBit slice.bytes bit } else none

/-- `byte_slice_bit_is_set`. -/
def byteSliceBitIsSet (slice : ByteSlice) (bit : ℕ) : Option Bool :=
  if slice.len > bit / 8 then
    some ((slice.bytes.getD (bit / 8) 0 &&& 1#8 <<< (bit % 8)) != 0)
  else none

/-- `byte_slice_all_bits_set`: stops at the first bit that is not set. -/
def byteSliceAllBitsSet (slice : ByteSlice) : List ℕ → Option Bool
  | [] => some true
  | bit :: bits => do
    if ← byteSliceBitIsSet slice bit then byteSliceAllBitsSet slice bits else some false

/-- `byte_slice_clear`. -/
def byteSliceClear (slice : ByteSlice) : ByteSlice :=
  { slice with bytes := List.replicate slice.len 0 }

theorem byteSliceBitIsSet_eq {s : ByteSlice} {bit : ℕ} (h : bit < 8 * s.len) :
    byteSliceBitIsSet s bit = some (bitAt s.bytes bit) := by
  have hone : ∀ (x : Byte) (t : ℕ), t < 8 → ((x &&& 1#8 <<< t) != 0) = x.getLsbD t := by
    intro x t ht
    interval_cases t <;> revert x <;> decide
  rw [byteSliceBitIsSet, if_pos (by omega), hone _ _ (Nat.mod_lt _ (by decide)), bitAt]

theorem byteSliceAllBitsSet_eq {s : ByteSlice} {bits : List ℕ} (h : ∀ b ∈ bits, b < 8 * s.len) :
    byteSliceAllBitsSet s bits = some (bits.all (bitAt s.bytes)) := by
  induction bits with
  | nil => rfl
  | cons b bits ih =>
    rw [byteSliceAllBitsSet, byteSliceBitIsSet_eq (h b (by simp)),
      ih fun b' hb' => h b' (by simp [hb'])]
    cases hb : bitAt s.bytes b <;> simp [hb]

/-- **Setting bits**: in bounds it succeeds, and sets those bits and no others. -/
theorem byteSliceSetBits_spec {s : ByteSlice} {bits : List ℕ} (h : ∀ b ∈ bits, b < 8 * s.len) :
    ∃ s', byteSliceSetBits s bits = some s' ∧ s'.addr = s.addr ∧ s'.len = s.len ∧
      ∀ i, bitAt s'.bytes i = (bitAt s.bytes i || decide (i ∈ bits)) := by
  induction bits generalizing s with
  | nil => exact ⟨s, rfl, rfl, rfl, fun i => by simp⟩
  | cons b bits ih =>
    have hb := h b (by simp)
    set s₁ : ByteSlice := { s with bytes := setBit s.bytes b } with hs₁
    have hlen : s₁.len = s.len := by simp [hs₁, ByteSlice.len]
    obtain ⟨s', he, ha, hl, hbits⟩ := ih (s := s₁) fun b' hb' => by
      rw [hlen]; exact h b' (by simp [hb'])
    refine ⟨s', ?_, ha, hl.trans hlen, fun i => ?_⟩
    · rw [byteSliceSetBits, List.foldlM_cons, byteSliceSetBit, if_pos (by omega)]
      exact he
    · have : b < 8 * s.bytes.length := hb
      rw [hbits, hs₁, bitAt_setBit, Bool.or_assoc]
      simp [this]

/-! ## Word-wise operations -/

/-- `_opt_align_begin`: the first multiple of `size` at or after an address. -/
def optAlignBegin (size value : ℕ) : ℕ := (value + size - 1) / size * size

/-- `_opt_align_end`: the last multiple of `size` at or before an address. -/
def optAlignEnd (size value : ℕ) : ℕ := value / size * size

/-- The number of single bytes before the aligned words of `len` bytes at
    `addr`, and the number of the words of `size` bytes; slices of at most two
    words are done byte by byte. -/
def optSplit (size addr len : ℕ) : ℕ × ℕ :=
  if len > size * 2 then
    (optAlignBegin size addr - addr,
      (optAlignEnd size (addr + len) - optAlignBegin size addr) / size)
  else (0, 0)

/-- The loop over single bytes. -/
def bytesLoop (op : Byte → Byte → Byte) (n : ℕ) (tgt oth : List Byte) : List Byte :=
  List.zipWith op (tgt.take n) (oth.take n)

/-- The loop over words: `*tgt_cur.opt++ op= *oth_cur.opt++`. -/
def wordsLoop (op : ℕ → ℕ → ℕ) : ℕ → List Byte → List Byte → List Byte
  | 0, _, _ => []
  | n + 1, tgt, oth =>
    toLE sizeofSizeT (op (ofLE (tgt.take sizeofSizeT)) (ofLE (oth.take sizeofSizeT))) ++
      wordsLoop op n (tgt.drop sizeofSizeT) (oth.drop sizeofSizeT)

/-- The common body of `byte_slice_bitwise_or` and `byte_slice_bitwise_and`,
    with the operator on bytes and the one on words. -/
def byteSliceBitwise (op8 : Byte → Byte → Byte) (op : ℕ → ℕ → ℕ) (target other : ByteSlice) :
    Option ByteSlice :=
  if target.addr % sizeofSizeT = other.addr % sizeofSizeT then
    let len := min target.len other.len
    let n := (optSplit sizeofSizeT target.addr len).1
    let w := (optSplit sizeofSizeT target.addr len).2
    let k := n + w * sizeofSizeT
    some { target with
      bytes := bytesLoop op8 n target.bytes other.bytes ++
        wordsLoop op w (target.bytes.drop n) (other.bytes.drop n) ++
        bytesLoop op8 (len - k) (target.bytes.drop k) (other.bytes.drop k) ++
        target.bytes.drop len }
  else none

/-- `byte_slice_bitwise_or`. -/
def byteSliceBitwiseOr (target other : ByteSlice) : Option ByteSlice :=
  byteSliceBitwise (· ||| ·) (· ||| ·) target other

/-- `byte_slice_bitwise_and`. -/
def byteSliceBitwiseAnd (target other : ByteSlice) : Option ByteSlice :=
  byteSliceBitwise (· &&& ·) (· &&& ·) target other

theorem optSplit_le (addr len : ℕ) :
    (optSplit sizeofSizeT addr len).1 + (optSplit sizeofSizeT addr len).2 * sizeofSizeT ≤ len := by
  unfold optSplit optAlignBegin optAlignEnd sizeofSizeT
  split_ifs <;> dsimp only <;> omega

/-- A word operation that works byte by byte. -/
def Bytewise (op8 : Byte → Byte → Byte) (op : ℕ → ℕ → ℕ) : Prop :=
  ∀ x y : Byte, ∀ a b : ℕ,
    op (x.toNat + 256 * a) (y.toNat + 256 * b) = (op8 x y).toNat + 256 * op a b

theorem toLE_op {op8 : Byte → Byte → Byte} {op : ℕ → ℕ → ℕ} (h : Bytewise op8 op) :
    ∀ a b : List Byte, a.length = b.length →
      toLE a.length (op (ofLE a) (ofLE b)) = List.zipWith op8 a b
  | [], [], _ => rfl
  | x :: a, y :: b, hl => by
    have hl' : a.length = b.length := by simpa using hl
    have hlt : (op8 x y).toNat < 256 := (op8 x y).isLt
    rw [List.length_cons, toLE, ofLE, ofLE, h, show ((op8 x y).toNat + 256 * op (ofLE a) (ofLE b)) /
      256 = op (ofLE a) (ofLE b) by omega, toLE_op h a b hl', List.zipWith_cons_cons]
    congr 1
    refine BitVec.eq_of_toNat_eq ?_
    rw [BitVec.toNat_ofNat]; omega

theorem zipWith_take_add (op : Byte → Byte → Byte) {a b : List Byte} {m : ℕ} (ha : m ≤ a.length)
    (hb : m ≤ b.length) (k : ℕ) :
    List.zipWith op (a.take (m + k)) (b.take (m + k)) = List.zipWith op (a.take m) (b.take m) ++
      List.zipWith op ((a.drop m).take k) ((b.drop m).take k) := by
  rw [List.take_add, List.take_add, List.zipWith_append (by simp; omega)]

theorem wordsLoop_eq {op8 : Byte → Byte → Byte} {op : ℕ → ℕ → ℕ} (h : Bytewise op8 op) :
    ∀ (n : ℕ) (a b : List Byte), n * sizeofSizeT ≤ a.length → n * sizeofSizeT ≤ b.length →
      wordsLoop op n a b =
        List.zipWith op8 (a.take (n * sizeofSizeT)) (b.take (n * sizeofSizeT))
  | 0, a, b, _, _ => by simp [wordsLoop]
  | n + 1, a, b, ha, hb => by
    rw [Nat.add_mul, Nat.one_mul] at ha hb
    have hla : (a.take sizeofSizeT).length = sizeofSizeT := by rw [List.length_take]; omega
    have hlb : (b.take sizeofSizeT).length = sizeofSizeT := by rw [List.length_take]; omega
    have hw := toLE_op h (a.take sizeofSizeT) (b.take sizeofSizeT) (by rw [hla, hlb])
    rw [hla] at hw
    rw [wordsLoop, hw, wordsLoop_eq h n _ _ (by rw [List.length_drop]; omega)
      (by rw [List.length_drop]; omega), Nat.add_mul, Nat.one_mul, Nat.add_comm,
      zipWith_take_add op8 (by omega) (by omega)]

/-- **The word-wise code is the byte-wise operation** on the first
    `min(len)` bytes, and leaves the rest of the target alone. -/
theorem byteSliceBitwise_eq {op8 : Byte → Byte → Byte} {op : ℕ → ℕ → ℕ} (h : Bytewise op8 op)
    {t o : ByteSlice} (ha : t.addr % sizeofSizeT = o.addr % sizeofSizeT) :
    byteSliceBitwise op8 op t o = some { t with
      bytes := List.zipWith op8 t.bytes o.bytes ++ t.bytes.drop (min t.len o.len) } := by
  rw [byteSliceBitwise, if_pos ha]
  simp only [bytesLoop]
  have hle := optSplit_le t.addr (min t.len o.len)
  generalize (optSplit sizeofSizeT t.addr (min t.len o.len)).1 = n at *
  generalize (optSplit sizeofSizeT t.addr (min t.len o.len)).2 = w at *
  have ht : min t.len o.len ≤ t.bytes.length := min_le_left _ _
  have ho : min t.len o.len ≤ o.bytes.length := min_le_right _ _
  have hz : List.zipWith op8 t.bytes o.bytes =
      List.zipWith op8 (t.bytes.take (min t.len o.len)) (o.bytes.take (min t.len o.len)) := by
    rw [← List.take_zipWith, List.take_of_length_le]
    simp [ByteSlice.len]
  have hsum : min t.len o.len = n + (w * sizeofSizeT +
      (min t.len o.len - (n + w * sizeofSizeT))) := by omega
  rw [wordsLoop_eq h w _ _ (by rw [List.length_drop]; omega) (by rw [List.length_drop]; omega), hz]
  -- the three loops work on consecutive parts of the two prefixes
  rw [hsum, zipWith_take_add op8 (by omega) (by omega), zipWith_take_add op8
    (by rw [List.length_drop]; omega) (by rw [List.length_drop]; omega), ← hsum]
  simp only [List.drop_drop, List.append_assoc]

theorem bytewise_or : Bytewise (· ||| ·) (· ||| ·) := by
  intro x y a b
  refine Nat.eq_of_testBit_eq fun i => ?_
  have hx : x.toNat < 2 ^ 8 := x.isLt
  have hy : y.toNat < 2 ^ 8 := y.isLt
  have hxy : (x ||| y).toNat < 2 ^ 8 := (x ||| y).isLt
  rw [show (256 : ℕ) = 2 ^ 8 by rfl, Nat.testBit_or, Nat.add_comm, Nat.add_comm y.toNat,
    Nat.add_comm (x ||| y).toNat, Nat.testBit_two_pow_mul_add _ hx, Nat.testBit_two_pow_mul_add _ hy,
    Nat.testBit_two_pow_mul_add _ hxy]
  split_ifs
  · rw [BitVec.toNat_or, Nat.testBit_or]
  · rw [Nat.testBit_or]

theorem bytewise_and : Bytewise (· &&& ·) (· &&& ·) := by
  intro x y a b
  refine Nat.eq_of_testBit_eq fun i => ?_
  have hx : x.toNat < 2 ^ 8 := x.isLt
  have hy : y.toNat < 2 ^ 8 := y.isLt
  have hxy : (x &&& y).toNat < 2 ^ 8 := (x &&& y).isLt
  rw [show (256 : ℕ) = 2 ^ 8 by rfl, Nat.testBit_and, Nat.add_comm, Nat.add_comm y.toNat,
    Nat.add_comm (x &&& y).toNat, Nat.testBit_two_pow_mul_add _ hx, Nat.testBit_two_pow_mul_add _ hy,
    Nat.testBit_two_pow_mul_add _ hxy]
  split_ifs
  · rw [BitVec.toNat_and, Nat.testBit_and]
  · rw [Nat.testBit_and]

theorem orBytes_eq : ∀ a b : List Byte,
    orBytes a b = List.zipWith (· ||| ·) a b ++ a.drop (min a.length b.length)
  | [], [] | [], _ :: _ | _ :: _, [] => rfl
  | x :: a, y :: b => by
    rw [orBytes, orBytes_eq a b]; simp

theorem byteSliceBitwiseOr_eq {t o : ByteSlice} (ha : t.addr % sizeofSizeT = o.addr % sizeofSizeT) :
    byteSliceBitwiseOr t o = some { t with bytes := orBytes t.bytes o.bytes } := by
  rw [byteSliceBitwiseOr, byteSliceBitwise_eq bytewise_or ha, orBytes_eq]; rfl

theorem byteSliceBitwiseAnd_eq {t o : ByteSlice}
    (ha : t.addr % sizeofSizeT = o.addr % sizeofSizeT) :
    byteSliceBitwiseAnd t o = some { t with
      bytes := List.zipWith (· &&& ·) t.bytes o.bytes ++ t.bytes.drop (min t.len o.len) } :=
  byteSliceBitwise_eq bytewise_and ha

/-! ## Counting bits -/

/-- `popcount_t` and `popcount`: the word size in bytes and the count of a
    word. -/
structure Popcount where
  size : ℕ
  count : ℕ → ℕ

/-- The built-in `popcount` on `unsigned long long`. -/
def Popcount.builtin : Popcount where
  size := 8
  count i := (List.range 64).countP i.testBit

/-- The fallback implementation of `popcount` on `uint32_t`. -/
def Popcount.fallback : Popcount where
  size := 4
  count i :=
    let i := BitVec.ofNat 32 i
    let i := i - ((i >>> 1) &&& 0x55555555#32)
    let i := (i &&& 0x33333333#32) + ((i >>> 2) &&& 0x33333333#32)
    ((((i + (i >>> 4)) &&& 0x0F0F0F0F#32) * 0x01010101#32) >>> 24).toNat

/-- The loop over words of `byte_slice_popcount`. -/
def popcountWords (pc : Popcount) : ℕ → List Byte → ℕ
  | 0, _ => 0
  | n + 1, cur => pc.count (ofLE (cur.take pc.size)) + popcountWords pc n (cur.drop pc.size)

/-- `byte_slice_popcount`. -/
def byteSlicePopcount (pc : Popcount) (slice : ByteSlice) : ℕ :=
  let n := (optSplit pc.size slice.addr slice.len).1
  let w := (optSplit pc.size slice.addr slice.len).2
  let bytesCount (l : List Byte) : ℕ := (l.map fun b => pc.count b.toNat).sum
  bytesCount (slice.bytes.take n) + popcountWords pc w (slice.bytes.drop n) +
    bytesCount (slice.bytes.drop (n + w * pc.size))

theorem popcountBytes_eq : ∀ bytes : List Byte,
    (bytes.map fun b => Popcount.builtin.count b.toNat).sum = countBits bytes
  | [] => rfl
  | b :: bytes => by
    have h64 : 8 * [b].length ≤ 64 := show 8 ≤ 64 by decide
    have hb : Popcount.builtin.count b.toNat = countBits [b] := by
      rw [← countP_testBit_ofLE h64, ofLE, ofLE, Nat.mul_zero, Nat.add_zero]
      rfl
    rw [List.map_cons, List.sum_cons, popcountBytes_eq bytes, hb, ← countBits_append,
      List.singleton_append]

theorem popcountWords_eq : ∀ {n : ℕ} {bytes : List Byte}, n * 8 ≤ bytes.length →
    popcountWords .builtin n bytes = countBits (bytes.take (n * 8))
  | 0, bytes, _ => by rw [Nat.zero_mul, List.take_zero]; rfl
  | n + 1, bytes, h => by
    have hword : Popcount.builtin.count (ofLE (bytes.take 8)) = countBits (bytes.take 8) :=
      countP_testBit_ofLE (by rw [List.length_take]; omega)
    have hsize : Popcount.builtin.size = 8 := rfl
    rw [popcountWords, hsize, hword, popcountWords_eq (by rw [List.length_drop]; omega),
      ← countBits_append, ← List.take_add, show (n + 1) * 8 = 8 + n * 8 by omega]

/-- **Counting** gives the number of bits set. -/
theorem byteSlicePopcount_eq (s : ByteSlice) :
    byteSlicePopcount .builtin s = countBits s.bytes := by
  have hle := optSplit_le s.addr s.len
  rw [sizeofSizeT] at hle
  have hsize : Popcount.builtin.size = 8 := rfl
  unfold byteSlicePopcount
  dsimp only
  rw [hsize]
  set n := (optSplit 8 s.addr s.len).1
  set w := (optSplit 8 s.addr s.len).2
  rw [ByteSlice.len] at hle
  rw [popcountBytes_eq, popcountBytes_eq, popcountWords_eq (by rw [List.length_drop]; omega),
    ← countBits_append, ← List.take_add, ← countBits_append, List.take_append_drop]

/-! ## MurmurHash64A -/

/-- `m` of `byte_slice_MurmurHash64A`. -/
def murmurM : BitVec 64 := 0xc6a4a7935bd1e995#64

/-- The loop over the 8-byte words of the data. -/
def murmurWords : ℕ → List Byte → BitVec 64 → BitVec 64
  | 0, _, h => h
  | n + 1, data, h =>
    let k := BitVec.ofNat 64 (ofLE (data.take 8)) * murmurM
    let k := (k ^^^ k >>> 47) * murmurM
    murmurWords n (data.drop 8) ((h ^^^ k) * murmurM)

/-- `byte_slice_MurmurHash64A`. -/
def byteSliceMurmurHash64A (data : List Byte) (seed : BitVec 32) : BitVec 64 :=
  let h := seed.setWidth 64 ^^^ BitVec.ofNat 64 data.length * murmurM
  let h := murmurWords (data.length / 8) data h
  let tail := data.drop (data.length / 8 * 8)
  -- the cases of the switch fall through, so a tail is one little-endian number
  let h := if tail = [] then h else (h ^^^ BitVec.ofNat 64 (ofLE tail)) * murmurM
  let h := (h ^^^ h >>> 47) * murmurM
  h ^^^ h >>> 47

/-! ## Multiplication in place -/

/-- The loop of `byte_slice_mul32_noasm` (`b = 4`) and `byte_slice_mul64_noasm`
    (`b = 8`) over the words of `b` bytes, with the carry `overflow`. -/
def byteSliceMulLoop (b multiplier : ℕ) : ℕ → List Byte → ℕ → List Byte × ℕ
  | 0, _, overflow => ([], overflow)
  | n + 1, data, overflow =>
    let tmp := ofLE (data.take b) * multiplier
    let mulLo := tmp % 256 ^ b
    let mulHi := tmp / 256 ^ b % 256 ^ b
    let tmp := mulLo + overflow
    let mulHi := if tmp > 256 ^ b - 1 then (mulHi + 1) % 256 ^ b else mulHi
    let r := byteSliceMulLoop b multiplier n (data.drop b) mulHi
    (toLE b tmp ++ r.1, r.2)

/-- `byte_slice_mul32_noasm`: the product in place, and the overflow. -/
def byteSliceMul32 (bytes : List Byte) (multiplier : ℕ) : Option (List Byte × ℕ) :=
  if bytes.length % 4 = 0 then some (byteSliceMulLoop 4 multiplier (bytes.length / 4) bytes 0)
  else none

/-- `byte_slice_mul64_noasm`. -/
def byteSliceMul64 (bytes : List Byte) (multiplier : ℕ) : Option (List Byte × ℕ) :=
  if bytes.length % 8 = 0 then some (byteSliceMulLoop 8 multiplier (bytes.length / 8) bytes 0)
  else none

/-- One round of the loop: the word and the carry are the two halves of
    `data * multiplier + overflow`, and the carry stays below the multiplier. -/
theorem mul_round {B x m o : ℕ} (hx : x < B) (ho : o < m) (hm : m ≤ B) :
    (if x * m % B + o > B - 1 then (x * m / B % B + 1) % B else x * m / B % B) =
      (x * m + o) / B ∧ (x * m + o) / B < m := by
  have hB : 0 < B := by omega
  have hlt : (x * m + o) / B < m := by
    rw [Nat.div_lt_iff_lt_mul hB]
    calc x * m + o < x * m + m := by omega
      _ = (x + 1) * m := by ring
      _ ≤ B * m := Nat.mul_le_mul_right m hx
      _ = m * B := Nat.mul_comm _ _
  have hdiv : (x * m + o) / B = x * m / B + (x * m % B + o) / B := by
    conv_lhs => rw [← Nat.div_add_mod (x * m) B, Nat.add_assoc, Nat.mul_add_div hB]
  have hmod : x * m % B < B := Nat.mod_lt _ hB
  have hq : x * m / B ≤ (x * m + o) / B := Nat.div_le_div_right (by omega)
  refine ⟨?_, hlt⟩
  rw [Nat.mod_eq_of_lt (show x * m / B < B by omega)]
  split_ifs with h
  · have h1 : (x * m % B + o) / B = 1 := by
      rw [Nat.div_eq_iff hB]; omega
    rw [hdiv, h1, Nat.mod_eq_of_lt (by omega)]
  · rw [hdiv, Nat.div_eq_of_lt (show x * m % B + o < B by omega), Nat.add_zero]

theorem byteSliceMulLoop_length (b m : ℕ) : ∀ (n : ℕ) (data : List Byte) (o : ℕ),
    (byteSliceMulLoop b m n data o).1.length = n * b
  | 0, _, _ => by simp [byteSliceMulLoop]
  | n + 1, data, o => by
    simp [byteSliceMulLoop, byteSliceMulLoop_length b m n, Nat.add_mul, Nat.add_comm]

theorem byteSliceMulLoop_lt {b m : ℕ} (hm : m ≤ 256 ^ b) : ∀ (n : ℕ) (data : List Byte) (o : ℕ),
    n * b ≤ data.length → o < m → (byteSliceMulLoop b m n data o).2 < m
  | 0, _, _, _, ho => ho
  | n + 1, data, o, hl, ho => by
    rw [Nat.add_mul, Nat.one_mul] at hl
    have hx : ofLE (data.take b) < 256 ^ b := by
      have := ofLE_lt (data.take b)
      rwa [List.length_take, min_eq_left (by omega)] at this
    obtain ⟨he, hlt⟩ := mul_round hx ho hm
    simp only [byteSliceMulLoop]
    exact byteSliceMulLoop_lt hm n _ _ (by rw [List.length_drop]; omega) (by rw [he]; exact hlt)

/-- **The product**: the bytes and the overflow are the number times the
    multiplier, whatever the width of the words. -/
theorem byteSliceMulLoop_ofLE {b m : ℕ} (hm : m ≤ 256 ^ b) : ∀ (n : ℕ) (data : List Byte) (o : ℕ),
    data.length = n * b → o < m →
      ofLE (byteSliceMulLoop b m n data o).1 + 256 ^ (n * b) * (byteSliceMulLoop b m n data o).2 =
        ofLE data * m + o
  | 0, data, o, hl, _ => by
    rw [Nat.zero_mul] at hl
    rw [List.eq_nil_of_length_eq_zero hl]
    simp [byteSliceMulLoop, ofLE]
  | n + 1, data, o, hl, ho => by
    rw [Nat.add_mul, Nat.one_mul] at hl
    have hword : (data.take b).length = b := by rw [List.length_take]; omega
    have hx : ofLE (data.take b) < 256 ^ b := by
      have := ofLE_lt (data.take b)
      rwa [hword] at this
    have hdata : ofLE data = ofLE (data.take b) + 256 ^ b * ofLE (data.drop b) := by
      conv_lhs => rw [← List.take_append_drop b data]
      rw [ofLE_append, hword]
    obtain ⟨he, hlt⟩ := mul_round hx ho hm
    simp only [byteSliceMulLoop]
    rw [he, ofLE_append, length_toLE, ofLE_toLE, Nat.mod_add_mod, hdata]
    have ih := byteSliceMulLoop_ofLE hm n (data.drop b) ((ofLE (data.take b) * m + o) / 256 ^ b)
      (by rw [List.length_drop]; omega) hlt
    have hdm := Nat.div_add_mod (ofLE (data.take b) * m + o) (256 ^ b)
    generalize byteSliceMulLoop b m n (data.drop b) ((ofLE (data.take b) * m + o) / 256 ^ b) = r at *
    generalize ofLE (data.take b) = x at *
    generalize ofLE (data.drop b) = y at *
    calc (x * m + o) % 256 ^ b + 256 ^ b * ofLE r.1 + 256 ^ ((n + 1) * b) * r.2
        = (x * m + o) % 256 ^ b + 256 ^ b * (ofLE r.1 + 256 ^ (n * b) * r.2) := by
          rw [Nat.add_mul, Nat.one_mul, pow_add]; ring
      _ = 256 ^ b * ((x * m + o) / 256 ^ b) + (x * m + o) % 256 ^ b + 256 ^ b * (y * m) := by
          rw [ih]; ring
      _ = (x + 256 ^ b * y) * m + o := by rw [hdm]; ring

/-- The product modulo the size of the slice, and what is above it. -/
theorem byteSliceMulLoop_eq {b m n : ℕ} {data : List Byte} (hm : m ≤ 256 ^ b) (h0 : 0 < m)
    (hl : data.length = n * b) :
    ofLE (byteSliceMulLoop b m n data 0).1 = ofLE data * m % 256 ^ data.length ∧
      (byteSliceMulLoop b m n data 0).2 = ofLE data * m / 256 ^ data.length := by
  have he := byteSliceMulLoop_ofLE hm n data 0 hl h0
  have hlt := ofLE_lt (byteSliceMulLoop b m n data 0).1
  rw [byteSliceMulLoop_length, ← hl] at hlt
  rw [← hl, Nat.add_zero] at he
  rw [← he, Nat.add_mul_mod_self_left, Nat.mod_eq_of_lt hlt,
    Nat.add_mul_div_left _ _ (by positivity), Nat.div_eq_of_lt hlt, Nat.zero_add]
  exact ⟨rfl, rfl⟩

/-- The overflow of a multiplication is below the multiplier. -/
theorem byteSliceMul64_spec (bytes : List Byte) {m : ℕ} (hl : bytes.length % 8 = 0) (h0 : 0 < m)
    (hm : m ≤ 2 ^ 64) : ∃ bytes' o, byteSliceMul64 bytes m = some (bytes', o) ∧
      bytes'.length = bytes.length ∧ o < m :=
  ⟨_, _, by rw [byteSliceMul64, if_pos hl], by rw [byteSliceMulLoop_length]; omega,
    byteSliceMulLoop_lt (by omega) _ _ _ (by omega) h0⟩

/-- The overflow of a multiplication is below the multiplier. -/
theorem byteSliceMul32_spec (bytes : List Byte) {m : ℕ} (hl : bytes.length % 4 = 0) (h0 : 0 < m)
    (hm : m ≤ 2 ^ 32) : ∃ bytes' o, byteSliceMul32 bytes m = some (bytes', o) ∧
      bytes'.length = bytes.length ∧ o < m :=
  ⟨_, _, by rw [byteSliceMul32, if_pos hl], by rw [byteSliceMulLoop_length]; omega,
    byteSliceMulLoop_lt (by omega) _ _ _ (by omega) h0⟩

end Honas

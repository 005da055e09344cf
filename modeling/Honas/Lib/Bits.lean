/-
  Byte strings read bit by bit.

  A byte string is a list of bytes; its bits are numbered from the least
  significant bit of its first byte (`bitAt`).  Every operation on memory
  below is described by the bits of its result: storing a byte, setting one
  bit, combining two strings with a bitwise or, and cutting out or replacing
  a slice.  Two strings of one length are equal when their bits are
  (`ext_bits`), so a claim about memory becomes a claim about bit positions,
  where `omega` decides which region a position belongs to.

  `ofLE` and `toLE` are the little-endian reading and writing of numbers.
-/
import Mathlib

namespace Bits

/-- A byte. -/
abbrev Byte := BitVec 8

instance : LawfulBEq Byte := inferInstance

/-- Bit `i` of a byte string; `false` past its end. -/
def bitAt (m : List Byte) (i : ℕ) : Bool := (m.getD (i / 8) 0).getLsbD (i % 8)

theorem bitAt_eq_false {m : List Byte} {i : ℕ} (h : 8 * m.length ≤ i) : bitAt m i = false := by
  have : m.length ≤ i / 8 := by omega
  simp [bitAt, List.getElem?_eq_none this]

theorem bitAt_mul_add (m : List Byte) (j t : ℕ) (ht : t < 8) :
    bitAt m (8 * j + t) = (m.getD j 0).getLsbD t := by
  rw [bitAt, show (8 * j + t) / 8 = j by omega, show (8 * j + t) % 8 = t by omega]

/-- **Byte strings are determined by their bits.** -/
theorem ext_bits {a b : List Byte} (hl : a.length = b.length)
    (h : ∀ i, i < 8 * a.length → bitAt a i = bitAt b i) : a = b := by
  refine List.ext_getElem hl fun j hj hj' => ?_
  refine BitVec.eq_of_getLsbD_eq fun t ht => ?_
  have := h (8 * j + t) (by omega)
  rw [bitAt_mul_add _ _ _ ht, bitAt_mul_add _ _ _ ht] at this
  simpa [List.getElem?_eq_getElem hj, List.getElem?_eq_getElem hj'] using this

theorem bitAt_replicate (n i : ℕ) : bitAt (List.replicate n 0) i = false := by
  unfold bitAt
  rw [List.getD_eq_getElem?_getD, List.getElem?_replicate]
  split_ifs <;> simp

/-! ## Storing a byte, setting a bit -/

theorem bitAt_set (m : List Byte) (j : ℕ) (b : Byte) (i : ℕ) :
    bitAt (m.set j b) i = if i / 8 = j ∧ j < m.length then b.getLsbD (i % 8) else bitAt m i := by
  unfold bitAt
  rw [List.getD_eq_getElem?_getD, List.getElem?_set]
  by_cases hj : i / 8 = j
  · subst hj
    by_cases hl : i / 8 < m.length
    · simp [hl]
    · simp [hl]
  · simp [hj, Ne.symm hj]

/-- The mask of one bit. -/
theorem getLsbD_one_shiftLeft (i j : ℕ) :
    (1#8 <<< (j % 8)).getLsbD (i % 8) = decide (i % 8 = j % 8) := by
  have h1 : i % 8 < 8 := Nat.mod_lt _ (by norm_num)
  have h2 : j % 8 < 8 := Nat.mod_lt _ (by norm_num)
  generalize i % 8 = a at *
  generalize j % 8 = b at *
  interval_cases a <;> interval_cases b <;> rfl

/-- Set one bit. -/
def setBit (m : List Byte) (i : ℕ) : List Byte :=
  m.set (i / 8) (m.getD (i / 8) 0 ||| 1#8 <<< (i % 8))

@[simp] theorem length_setBit (m : List Byte) (i : ℕ) : (setBit m i).length = m.length := by
  simp [setBit]

theorem bitAt_setBit (m : List Byte) (j i : ℕ) :
    bitAt (setBit m j) i = (bitAt m i || decide (i = j ∧ j < 8 * m.length)) := by
  rw [setBit, bitAt_set]
  by_cases hq : i / 8 = j / 8 ∧ j / 8 < m.length
  · rw [if_pos hq, BitVec.getLsbD_or, ← hq.1]
    rw [getLsbD_one_shiftLeft, bitAt]
    congr 1
    exact decide_eq_decide.2 ⟨fun h => by omega, fun h => by omega⟩
  · rw [if_neg hq, decide_eq_false (fun h => hq (by omega)), Bool.or_false]

/-- Clear one bit. -/
def clearBit (m : List Byte) (i : ℕ) : List Byte :=
  m.set (i / 8) (m.getD (i / 8) 0 &&& ~~~(1#8 <<< (i % 8)))

@[simp] theorem length_clearBit (m : List Byte) (i : ℕ) : (clearBit m i).length = m.length := by
  simp [clearBit]

theorem bitAt_clearBit (m : List Byte) (j i : ℕ) :
    bitAt (clearBit m j) i = (bitAt m i && decide (i ≠ j)) := by
  rw [clearBit, bitAt_set]
  by_cases hq : i / 8 = j / 8 ∧ j / 8 < m.length
  · have hlt : i % 8 < 8 := Nat.mod_lt _ (by norm_num)
    have hmask : (~~~(1#8 <<< (j % 8))).getLsbD (i % 8) = decide (i % 8 ≠ j % 8) := by
      rw [BitVec.getLsbD_not, getLsbD_one_shiftLeft, decide_eq_true hlt, Bool.true_and, decide_not]
    rw [if_pos hq, BitVec.getLsbD_and, ← hq.1, hmask, bitAt]
    congr 1
    exact decide_eq_decide.2 ⟨fun h => by omega, fun h => by omega⟩
  · rw [if_neg hq]
    by_cases hij : i = j
    · subst hij
      rw [bitAt_eq_false (by omega), Bool.false_and]
    · rw [decide_eq_true hij, Bool.and_true]

/-! ## Bitwise or -/

/-- The bitwise or of the first bytes of `a` with the bytes of `b`; the bytes
    of `a` beyond `b` stay. -/
def orBytes : List Byte → List Byte → List Byte
  | x :: a, y :: b => (x ||| y) :: orBytes a b
  | a, _ => a

@[simp] theorem length_orBytes : ∀ a b : List Byte, (orBytes a b).length = a.length
  | [], [] | [], _ :: _ | _ :: _, [] => rfl
  | x :: a, y :: b => by simp [orBytes, length_orBytes a b]

theorem getD_orBytes : ∀ (a b : List Byte) (j : ℕ), j < a.length →
    (orBytes a b).getD j 0 = a.getD j 0 ||| b.getD j 0
  | x :: a, [], j, _ => by simp [orBytes]
  | x :: a, y :: b, 0, _ => by simp [orBytes]
  | x :: a, y :: b, j + 1, h => by
    simpa [orBytes] using getD_orBytes a b j (by simpa using h)

theorem bitAt_orBytes (a b : List Byte) (i : ℕ) :
    bitAt (orBytes a b) i = (bitAt a i || (decide (i < 8 * a.length) && bitAt b i)) := by
  by_cases h : i < 8 * a.length
  · rw [bitAt, getD_orBytes a b _ (by omega), BitVec.getLsbD_or]
    simp [h, bitAt]
  · rw [bitAt_eq_false (by simpa using not_lt.1 h), bitAt_eq_false (by simpa using not_lt.1 h)]
    simp [h]

theorem bitAt_zipWith_and {a b : List Byte} (h : a.length = b.length) (i : ℕ) :
    bitAt (List.zipWith (· &&& ·) a b) i = (bitAt a i && bitAt b i) := by
  by_cases hi : i / 8 < a.length
  · rw [bitAt, bitAt, bitAt, List.getD_eq_getElem?_getD, List.getD_eq_getElem?_getD,
      List.getD_eq_getElem?_getD, List.getElem?_zipWith, List.getElem?_eq_getElem hi,
      List.getElem?_eq_getElem (h ▸ hi)]
    exact BitVec.getLsbD_and
  · have hz : (List.zipWith (· &&& ·) a b).length = a.length := by
      rw [List.length_zipWith, ← h, min_self]
    rw [bitAt_eq_false (by omega), bitAt_eq_false (m := a) (by omega), Bool.false_and]

/-! ## Slices -/

/-- The `len` bytes from offset `off`. -/
def slice (m : List Byte) (off len : ℕ) : List Byte := (m.drop off).take len

/-- The string with the bytes from offset `off` replaced by `bs`. -/
def splice (m : List Byte) (off : ℕ) (bs : List Byte) : List Byte :=
  m.take off ++ bs ++ m.drop (off + bs.length)

theorem length_slice {m : List Byte} {off len : ℕ} (h : off + len ≤ m.length) :
    (slice m off len).length = len := by
  simp [slice]; omega

theorem length_splice {m : List Byte} {off : ℕ} {bs : List Byte} (h : off + bs.length ≤ m.length) :
    (splice m off bs).length = m.length := by
  simp [splice]; omega

theorem getD_slice (m : List Byte) (off len j : ℕ) :
    (slice m off len).getD j 0 = if j < len then m.getD (off + j) 0 else 0 := by
  simp only [slice, List.getD_eq_getElem?_getD, List.getElem?_take, List.getElem?_drop]
  split_ifs <;> rfl

theorem getD_splice {m : List Byte} {off : ℕ} {bs : List Byte} (h : off + bs.length ≤ m.length)
    (j : ℕ) : (splice m off bs).getD j 0 =
      if off ≤ j ∧ j < off + bs.length then bs.getD (j - off) 0 else m.getD j 0 := by
  have hoff : (m.take off).length = off := by simp; omega
  simp only [splice, List.getD_eq_getElem?_getD, List.append_assoc]
  by_cases h1 : j < off
  · rw [List.getElem?_append_left (by omega), List.getElem?_take, if_pos h1, if_neg (by omega)]
  · rw [List.getElem?_append_right (by omega), hoff]
    by_cases h2 : j < off + bs.length
    · rw [List.getElem?_append_left (by omega), if_pos (by omega)]
    · rw [List.getElem?_append_right (by omega), if_neg (by omega), List.getElem?_drop]
      congr 2; omega

theorem bitAt_slice (m : List Byte) (off len i : ℕ) :
    bitAt (slice m off len) i = (decide (i < 8 * len) && bitAt m (8 * off + i)) := by
  rw [bitAt, getD_slice, bitAt, show (8 * off + i) / 8 = off + i / 8 by omega,
    show (8 * off + i) % 8 = i % 8 by omega]
  by_cases h : i < 8 * len
  · rw [if_pos (by omega)]; simp [h]
  · rw [if_neg (by omega)]; simp [h]

theorem bitAt_splice {m : List Byte} {off : ℕ} {bs : List Byte} (h : off + bs.length ≤ m.length)
    (i : ℕ) : bitAt (splice m off bs) i =
      if 8 * off ≤ i ∧ i < 8 * (off + bs.length) then bitAt bs (i - 8 * off) else bitAt m i := by
  rw [bitAt, getD_splice h, bitAt, bitAt, show (i - 8 * off) / 8 = i / 8 - off by omega]
  by_cases hi : 8 * off ≤ i ∧ i < 8 * (off + bs.length)
  · rw [if_pos (by omega), if_pos hi, show (i - 8 * off) % 8 = i % 8 by omega]
  · rw [if_neg (by omega), if_neg hi]

/-- Reading back what was stored. -/
theorem slice_splice_self {m : List Byte} {off : ℕ} {bs : List Byte}
    (h : off + bs.length ≤ m.length) : slice (splice m off bs) off bs.length = bs := by
  have hl : (slice (splice m off bs) off bs.length).length = bs.length :=
    length_slice (by rw [length_splice h]; exact h)
  refine ext_bits hl fun i hi => ?_
  rw [hl] at hi
  rw [bitAt_slice, bitAt_splice h, if_pos (by omega), show 8 * off + i - 8 * off = i by omega]
  simp [hi]

/-- Storing does not change a slice that ends before it or begins after it. -/
theorem slice_splice_of_disjoint {m : List Byte} {off off' len : ℕ} {bs : List Byte}
    (h : off + bs.length ≤ m.length) (h' : off' + len ≤ m.length)
    (hd : off' + len ≤ off ∨ off + bs.length ≤ off') :
    slice (splice m off bs) off' len = slice m off' len := by
  have hl : (slice m off' len).length = len := length_slice h'
  refine ext_bits (by rw [hl, length_slice (by rw [length_splice h]; exact h')]) fun i hi => ?_
  rw [length_slice (by rw [length_splice h]; exact h')] at hi
  rw [bitAt_slice, bitAt_slice, bitAt_splice h, if_neg (by omega)]

/-- **Taking the bitwise or** of a slice, in place. -/
theorem splice_orBytes {m t : List Byte} {off len : ℕ} (h : off + len ≤ m.length) :
    (splice m off (orBytes (slice m off len) (slice t off len))).length = m.length ∧
      ∀ i, bitAt (splice m off (orBytes (slice m off len) (slice t off len))) i =
        (bitAt m i || (decide (8 * off ≤ i ∧ i < 8 * (off + len)) && bitAt t i)) := by
  have hl : (orBytes (slice m off len) (slice t off len)).length = len := by
    rw [length_orBytes, length_slice h]
  have hend : off + (orBytes (slice m off len) (slice t off len)).length ≤ m.length := by
    rw [hl]; exact h
  refine ⟨length_splice hend, fun i => ?_⟩
  rw [bitAt_splice hend, hl]
  by_cases hin : 8 * off ≤ i ∧ i < 8 * (off + len)
  · rw [if_pos hin, bitAt_orBytes, length_slice h, bitAt_slice, bitAt_slice,
      decide_eq_true (show i - 8 * off < 8 * len by omega), decide_eq_true hin,
      show 8 * off + (i - 8 * off) = i by omega]
    simp only [Bool.true_and]
  · rw [if_neg hin, decide_eq_false hin, Bool.false_and, Bool.or_false]

/-! ## Little-endian numbers -/

/-- The number with the given little-endian bytes. -/
def ofLE : List Byte → ℕ
  | [] => 0
  | b :: bs => b.toNat + 256 * ofLE bs

/-- The low `w` bytes of a number, least significant first. -/
def toLE : ℕ → ℕ → List Byte
  | 0, _ => []
  | w + 1, n => BitVec.ofNat 8 n :: toLE w (n / 256)

@[simp] theorem length_toLE : ∀ w n : ℕ, (toLE w n).length = w
  | 0, _ => rfl
  | w + 1, n => by simp [toLE, length_toLE w]

theorem ofLE_lt : ∀ bs : List Byte, ofLE bs < 256 ^ bs.length
  | [] => by simp [ofLE]
  | b :: bs => by
    have ih := ofLE_lt bs
    have hb : b.toNat < 256 := b.isLt
    rw [ofLE, List.length_cons, pow_succ]; omega

theorem ofLE_toLE : ∀ w n : ℕ, ofLE (toLE w n) = n % 256 ^ w
  | 0, n => by simp [toLE, ofLE, Nat.mod_one]
  | w + 1, n => by
    have hm : n % (256 * 256 ^ w) = n % 256 + 256 * (n / 256 % 256 ^ w) := Nat.mod_mul
    rw [toLE, ofLE, ofLE_toLE w, BitVec.toNat_ofNat, pow_succ' 256, hm]

theorem toLE_ofLE : ∀ bs : List Byte, toLE bs.length (ofLE bs) = bs
  | [] => rfl
  | b :: bs => by
    have hb : b.toNat < 256 := b.isLt
    rw [List.length_cons, toLE, ofLE, show (b.toNat + 256 * ofLE bs) / 256 = ofLE bs by omega,
      toLE_ofLE bs]
    congr 1
    refine BitVec.eq_of_toNat_eq ?_
    rw [BitVec.toNat_ofNat]; omega

theorem ofLE_append : ∀ a b : List Byte, ofLE (a ++ b) = ofLE a + 256 ^ a.length * ofLE b
  | [], b => by simp [ofLE]
  | x :: a, b => by
    rw [List.cons_append, ofLE, ofLE, ofLE_append a b, List.length_cons, pow_succ]; ring

theorem bitAt_append (a b : List Byte) (i : ℕ) :
    bitAt (a ++ b) i = if i < 8 * a.length then bitAt a i else bitAt b (i - 8 * a.length) := by
  unfold bitAt
  split_ifs with h
  · rw [List.getD_append _ _ _ _ (by omega)]
  · rw [List.getD_append_right _ _ _ _ (by omega),
      show (i - 8 * a.length) / 8 = i / 8 - a.length by omega,
      show (i - 8 * a.length) % 8 = i % 8 by omega]

/-- **Bits of a number** are those of its bytes. -/
theorem testBit_ofLE : ∀ (bs : List Byte) (i : ℕ), (ofLE bs).testBit i = bitAt bs i
  | [], i => by simp [ofLE, bitAt]
  | b :: bs, i => by
    have hb : b.toNat < 2 ^ 8 := b.isLt
    rw [ofLE, show b.toNat + 256 * ofLE bs = 2 ^ 8 * ofLE bs + b.toNat by omega,
      Nat.testBit_two_pow_mul_add _ hb, testBit_ofLE bs, ← List.singleton_append, bitAt_append]
    split_ifs with h h' h'
    · rw [bitAt, show i / 8 = 0 by omega, Nat.mod_eq_of_lt h]
      rfl
    · exact absurd h h'
    · exact absurd h' h
    · rfl

/-! ## Counting bits -/

/-- The number of bits that are set. -/
def countBits (m : List Byte) : ℕ := (List.range (8 * m.length)).countP (bitAt m)

theorem countBits_append (a b : List Byte) : countBits (a ++ b) = countBits a + countBits b := by
  have ha : (List.range (8 * a.length)).countP (bitAt (a ++ b)) = countBits a := by
    refine List.countP_congr fun i hi => ?_
    rw [bitAt_append, if_pos (List.mem_range.1 hi)]
  have hb : (List.range (8 * b.length)).countP (bitAt (a ++ b) ∘ (8 * a.length + ·)) =
      countBits b := by
    refine List.countP_congr fun i _ => ?_
    rw [Function.comp_apply, bitAt_append, if_neg (by omega), Nat.add_sub_cancel_left]
  rw [countBits, List.length_append, Nat.mul_add, List.range_add, List.countP_append,
    List.countP_map, ha, hb]

theorem countBits_pos {m : List Byte} {i : ℕ} (h : bitAt m i = true) : 0 < countBits m := by
  refine List.countP_pos_iff.2 ⟨i, List.mem_range.2 ?_, h⟩
  by_contra hge
  rw [bitAt_eq_false (by omega)] at h
  cases h

/-- The number of bits that a set of positions turns on. -/
theorem countBits_of_bitAt {m : List Byte} {s : Finset ℕ} (hs : ∀ i ∈ s, i < 8 * m.length)
    (h : ∀ i, bitAt m i = decide (i ∈ s)) : countBits m = s.card := by
  have hset : (Finset.range (8 * m.length)).filter (fun i => i ∈ s) = s := by
    ext i
    simp only [Finset.mem_filter, Finset.mem_range, and_iff_right_iff_imp]
    exact hs i
  have hcount : countBits m = (List.range (8 * m.length)).countP (fun i => decide (i ∈ s)) :=
    List.countP_congr fun i _ => by rw [h]
  rw [hcount, List.countP_eq_length_filter]
  conv_rhs => rw [← hset]
  rfl

/-- Further bits of a number are not set. -/
theorem countP_testBit_ofLE {bs : List Byte} {n : ℕ} (h : 8 * bs.length ≤ n) :
    (List.range n).countP (ofLE bs).testBit = countBits bs := by
  obtain ⟨k, rfl⟩ := Nat.exists_eq_add_of_le h
  have hk : (List.range k).countP ((ofLE bs).testBit ∘ (8 * bs.length + ·)) = 0 := by
    refine List.countP_eq_zero.2 fun i _ => ?_
    rw [Function.comp_apply, testBit_ofLE, bitAt_eq_false (by omega)]
    exact Bool.false_ne_true
  rw [List.range_add, List.countP_append, List.countP_map, hk, Nat.add_zero, countBits]
  exact List.countP_congr fun i _ => by rw [testBit_ofLE]

end Bits

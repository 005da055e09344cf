/-
  The word-wise loops in the memory (`src/byte_slice.c`).

  Three loops run over a slice: single bytes up to the first aligned address, words up to
  the last one, and single bytes up to the end.  Here they work on the memory, and every
  access to a word is recorded.

  * `bitwise_eq`: the three loops do what one loop over single bytes does, also when the
    slices overlap, and no word access leaves the slices;
  * `popcount_eq`: the three loops count the bits of the bytes, with the built-in
    functions and with the fallback (`Popcount.Counts`);
  * `wordwise_eq_bytewise` puts these together.
-/
import Honas.ByteSlice
import Honas.Lib.BitCount
import Honas.Lib.Memory

namespace Honas

open Bits Memory BitCount

/-! ## The code -/

/-- A `byte_slice_t` without its bytes, which are in the memory. -/
structure MemSlice where
  addr : ℕ
  len : ℕ

/-- An access to a word. -/
structure Access where
  addr : ℕ
  size : ℕ

def Access.Inside (a : Access) (addr len : ℕ) : Prop := addr ≤ a.addr ∧ a.addr + a.size ≤ addr + len

/-- The memory, the pointers `tgt_cur` and `oth_cur`, and the word accesses so far. -/
structure Cursors where
  mem : Mem
  tgt : ℕ
  oth : ℕ
  accesses : List Access

/-- `*tgt_cur.bytes++ op= *oth_cur.bytes++`. -/
def byteStep (op8 : Byte → Byte → Byte) (c : Cursors) : Cursors :=
  { c with
    mem := Function.update c.mem c.tgt (op8 (c.mem c.tgt) (c.mem c.oth))
    tgt := c.tgt + 1
    oth := c.oth + 1 }

/-- `*tgt_cur.opt++ op= *oth_cur.opt++`. -/
def wordStep (op : ℕ → ℕ → ℕ) (c : Cursors) : Cursors where
  mem := store c.mem sizeofSizeT c.tgt
    (op (load c.mem sizeofSizeT c.tgt) (load c.mem sizeofSizeT c.oth))
  tgt := c.tgt + sizeofSizeT
  oth := c.oth + sizeofSizeT
  accesses := c.accesses ++ [⟨c.tgt, sizeofSizeT⟩, ⟨c.oth, sizeofSizeT⟩]

/-- `while (tgt_cur.bytes < stop)`. -/
def byteLoop (op8 : Byte → Byte → Byte) (stop : ℕ) (c : Cursors) : Cursors :=
  if c.tgt < stop then byteLoop op8 stop (byteStep op8 c) else c
termination_by stop - c.tgt
decreasing_by simp only [byteStep]; omega

/-- `while (tgt_cur.opt < stop)`. -/
def wordLoop (op : ℕ → ℕ → ℕ) (stop : ℕ) (c : Cursors) : Cursors :=
  if c.tgt < stop then wordLoop op stop (wordStep op c) else c
termination_by stop - c.tgt
decreasing_by simp only [wordStep, sizeofSizeT]; omega

/-- `byte_slice_bitwise_or` and `byte_slice_bitwise_and`: the memory, and the accesses to
    words. -/
def bitwiseMem (op8 : Byte → Byte → Byte) (op : ℕ → ℕ → ℕ) (target other : MemSlice) (mem : Mem) :
    Option (Mem × List Access) :=
  if target.addr % sizeofSizeT = other.addr % sizeofSizeT then
    let len := if target.len ≤ other.len then target.len else other.len
    let tgtEnd := target.addr + len
    let c : Cursors := ⟨mem, target.addr, other.addr, []⟩
    let c :=
      if len > sizeofSizeT * 2 then
        wordLoop op (optAlignEnd sizeofSizeT tgtEnd)
          (byteLoop op8 (optAlignBegin sizeofSizeT target.addr) c)
      else c
    let c := byteLoop op8 tgtEnd c
    some (c.mem, c.accesses)
  else none

/-- `byte_slice_bitwise_or`. -/
def bitwiseOrMem : MemSlice → MemSlice → Mem → Option (Mem × List Access) :=
  bitwiseMem (· ||| ·) (· ||| ·)

/-- `byte_slice_bitwise_and`. -/
def bitwiseAndMem : MemSlice → MemSlice → Mem → Option (Mem × List Access) :=
  bitwiseMem (· &&& ·) (· &&& ·)

/-- The pointer `cur`, `bits`, and the word accesses so far. -/
structure BitCounter where
  cur : ℕ
  bits : ℕ
  accesses : List Access

/-- `SIZE_MAX`. -/
def SIZE_MAX : ℕ := 2 ^ 64 - 1

/-- `while (cur.bytes < stop)`. -/
def byteCountLoop (pc : Popcount) (mem : Mem) (stop : ℕ) (c : BitCounter) : BitCounter :=
  if c.cur < stop then
    byteCountLoop pc mem stop
      { c with
        cur := c.cur + 1
        bits := (c.bits + pc.count (mem c.cur).toNat) % (SIZE_MAX + 1) }
  else c
termination_by stop - c.cur

/-- `while (cur.opt < stop)`, for words that are not empty. -/
def wordCountLoop (pc : Popcount) (mem : Mem) (stop : ℕ) (c : BitCounter) : BitCounter :=
  if c.cur < stop ∧ 0 < pc.size then
    wordCountLoop pc mem stop
      { cur := c.cur + pc.size
        bits := (c.bits + pc.count (load mem pc.size c.cur)) % (SIZE_MAX + 1)
        accesses := c.accesses ++ [⟨c.cur, pc.size⟩] }
  else c
termination_by stop - c.cur

/-- `byte_slice_popcount`: the number of bits, and the accesses to words. -/
def popcountMem (pc : Popcount) (slice : MemSlice) (mem : Mem) : Option (ℕ × List Access) :=
  if slice.len ≤ SIZE_MAX >>> 3 then
    let sliceEnd := slice.addr + slice.len
    let c : BitCounter := ⟨slice.addr, 0, []⟩
    let c :=
      if slice.len > pc.size * 2 then
        wordCountLoop pc mem (optAlignEnd pc.size sliceEnd)
          (byteCountLoop pc mem (optAlignBegin pc.size slice.addr) c)
      else c
    let c := byteCountLoop pc mem sliceEnd c
    some (c.bits, c.accesses)
  else none

/-! ## Bytes and words -/

theorem optAlign_bounds {size addr len : ℕ} (hsize : size = 4 ∨ size = 8) (h : len > size * 2) :
    addr ≤ optAlignBegin size addr ∧ optAlignEnd size (addr + len) ≤ addr + len ∧
      ∃ n, optAlignEnd size (addr + len) = optAlignBegin size addr + n * size := by
  refine ⟨?_, ?_, (optAlignEnd size (addr + len) - optAlignBegin size addr) / size, ?_⟩ <;>
    rcases hsize with rfl | rfl <;> simp only [optAlignBegin, optAlignEnd] <;> omega

section
variable {op8 : Byte → Byte → Byte} {op : ℕ → ℕ → ℕ}

/-- The loop over bytes, step by step. -/
theorem byteLoop_eq {stop : ℕ} : ∀ (n : ℕ) (c : Cursors), stop = c.tgt + n →
    byteLoop op8 stop c = (byteStep op8)^[n] c
  | 0, c, h => by
    rw [byteLoop, if_neg (by omega)]
    rfl
  | n + 1, c, h => by
    have hstep : stop = (byteStep op8 c).tgt + n := by simp only [byteStep]; omega
    rw [byteLoop, if_pos (by omega), Function.iterate_succ_apply, byteLoop_eq n _ hstep]

theorem iterate_byteStep_tgt (n : ℕ) (c : Cursors) : ((byteStep op8)^[n] c).tgt = c.tgt + n := by
  induction n with
  | zero => rfl
  | succ n ih =>
    rw [Function.iterate_succ_apply', byteStep, ih]
    rfl

theorem iterate_byteStep_oth (n : ℕ) (c : Cursors) : ((byteStep op8)^[n] c).oth = c.oth + n := by
  induction n with
  | zero => rfl
  | succ n ih =>
    rw [Function.iterate_succ_apply', byteStep, ih]
    rfl

theorem iterate_byteStep_accesses (n : ℕ) (c : Cursors) :
    ((byteStep op8)^[n] c).accesses = c.accesses := by
  induction n with
  | zero => rfl
  | succ n ih => rw [Function.iterate_succ_apply', byteStep, ih]

/-- With further accesses. -/
def Cursors.logged (c : Cursors) (l : List Access) : Cursors :=
  { c with accesses := c.accesses ++ l }

theorem iterate_byteStep_logged (l : List Access) (n : ℕ) (c : Cursors) :
    (byteStep op8)^[n] (c.logged l) = ((byteStep op8)^[n] c).logged l := by
  induction n with
  | zero => rfl
  | succ n ih =>
    rw [Function.iterate_succ_apply', Function.iterate_succ_apply', ih]
    rfl

/-- **Bytes that are not read after they are written**: the operation at every byte. -/
theorem iterate_byteStep_mem {c : Cursors} : ∀ {n : ℕ},
    (∀ i < n, ∀ j < i, c.oth + i ≠ c.tgt + j) → ((byteStep op8)^[n] c).mem = fun x =>
      if c.tgt ≤ x ∧ x < c.tgt + n then op8 (c.mem x) (c.mem (c.oth + (x - c.tgt))) else c.mem x
  | 0, _ => by
    funext x
    rw [if_neg (by omega)]
    rfl
  | n + 1, h => by
    have ih := iterate_byteStep_mem fun i hi => h i (Nat.lt_succ_of_lt hi)
    have hread : ¬ (c.tgt ≤ c.oth + n ∧ c.oth + n < c.tgt + n) := fun hin =>
      h n (Nat.lt_succ_self n) (c.oth + n - c.tgt) (by omega) (by omega)
    rw [Function.iterate_succ_apply', byteStep, ih, iterate_byteStep_tgt, iterate_byteStep_oth]
    dsimp only
    rw [if_neg (by omega : ¬ (c.tgt ≤ c.tgt + n ∧ c.tgt + n < c.tgt + n)), if_neg hread]
    funext x
    by_cases hx : x = c.tgt + n
    · rw [hx, Function.update_self, if_pos (by omega), Nat.add_sub_cancel_left]
    · rw [Function.update_of_ne hx]
      exact if_congr (by omega) rfl rfl

/-- **A word is eight bytes**, if the pointers are aligned alike. -/
theorem wordStep_eq (hop : Bytewise op8 op) {c : Cursors}
    (h : c.tgt % sizeofSizeT = c.oth % sizeofSizeT) :
    wordStep op c = ((byteStep op8)^[sizeofSizeT] c).logged
      [⟨c.tgt, sizeofSizeT⟩, ⟨c.oth, sizeofSizeT⟩] := by
  have hlen : (bytesAt c.mem c.tgt sizeofSizeT).length =
      (bytesAt c.mem c.oth sizeofSizeT).length := by rw [length_bytesAt, length_bytesAt]
  have hword := toLE_op hop _ _ hlen
  rw [length_bytesAt] at hword
  have hzip : (List.zipWith op8 (bytesAt c.mem c.tgt sizeofSizeT)
      (bytesAt c.mem c.oth sizeofSizeT)).length = sizeofSizeT := by
    rw [List.length_zipWith, length_bytesAt, length_bytesAt, min_self]
  -- a byte of the other word is a byte of this one at the same place, or of another word
  have hmem := @iterate_byteStep_mem op8 c sizeofSizeT fun i hi j hj => by
    rw [sizeofSizeT] at h hi
    omega
  rw [wordStep, store, load, load, hword, Cursors.logged, hmem, iterate_byteStep_tgt,
    iterate_byteStep_oth, iterate_byteStep_accesses]
  refine congrArg (Cursors.mk · _ _ _) (funext fun x => ?_)
  rw [storeBytes, hzip]
  by_cases hx : c.tgt ≤ x ∧ x < c.tgt + sizeofSizeT
  · have hlt : x - c.tgt < sizeofSizeT := by omega
    rw [if_pos hx, if_pos hx, List.getD_eq_getElem _ _ (by rwa [hzip]), List.getElem_zipWith,
      getElem_bytesAt, getElem_bytesAt, Nat.add_sub_cancel' hx.1]
  · rw [if_neg hx, if_neg hx]

/-- **The loop over words** does what the loop over bytes does. -/
theorem wordLoop_eq (hop : Bytewise op8 op) {stop : ℕ} : ∀ (n : ℕ) (c : Cursors),
    stop = c.tgt + n * sizeofSizeT → c.tgt % sizeofSizeT = c.oth % sizeofSizeT →
      ∃ accesses, wordLoop op stop c = ((byteStep op8)^[n * sizeofSizeT] c).logged accesses ∧
        ∀ a ∈ accesses, a.Inside c.tgt (n * sizeofSizeT) ∨ a.Inside c.oth (n * sizeofSizeT)
  | 0, c, h, _ => by
    refine ⟨[], ?_, fun a ha => absurd ha List.not_mem_nil⟩
    rw [wordLoop, if_neg (by omega), Cursors.logged, List.append_nil, Nat.zero_mul]
    rfl
  | n + 1, c, h, hal => by
    have hstep : (wordStep op c).tgt = c.tgt + 8 ∧ (wordStep op c).oth = c.oth + 8 := ⟨rfl, rfl⟩
    have hstop : stop = (wordStep op c).tgt + n * sizeofSizeT := by
      rw [hstep.1, h, sizeofSizeT]
      omega
    obtain ⟨accesses, hloop, hin⟩ := wordLoop_eq hop n (wordStep op c) hstop
      (by rw [hstep.1, hstep.2]; rw [sizeofSizeT] at hal ⊢; omega)
    refine ⟨[⟨c.tgt, sizeofSizeT⟩, ⟨c.oth, sizeofSizeT⟩] ++ accesses, ?_, fun a ha => ?_⟩
    · have hlt : c.tgt < stop := by rw [h, sizeofSizeT]; omega
      rw [wordLoop, if_pos hlt, hloop, wordStep_eq hop hal, iterate_byteStep_logged,
        ← Function.iterate_add_apply, Nat.add_mul, Nat.one_mul, Cursors.logged, Cursors.logged,
        List.append_assoc]
      rfl
    · rw [hstep.1, hstep.2] at hin
      simp only [Access.Inside, sizeofSizeT] at hin ⊢
      rcases List.mem_append.1 ha with ha | ha
      · rw [List.mem_cons, List.mem_singleton] at ha
        rcases ha with rfl | rfl
        · exact .inl ⟨le_rfl, by dsimp only [sizeofSizeT]; omega⟩
        · exact .inr ⟨le_rfl, by dsimp only [sizeofSizeT]; omega⟩
      · exact (hin a ha).imp (fun h => ⟨by omega, by omega⟩) fun h => ⟨by omega, by omega⟩

/-- **The three loops** do what one loop over bytes does, and stay inside the slices. -/
theorem bitwise_eq (hop : Bytewise op8 op) {target other : MemSlice} (mem : Mem)
    (hal : target.addr % sizeofSizeT = other.addr % sizeofSizeT) :
    ∃ accesses, bitwiseMem op8 op target other mem =
        some (((byteStep op8)^[min target.len other.len]
          ⟨mem, target.addr, other.addr, []⟩).mem, accesses) ∧
      ∀ a ∈ accesses, a.Inside target.addr target.len ∨ a.Inside other.addr other.len := by
  have hmin : (if target.len ≤ other.len then target.len else other.len) =
      min target.len other.len := rfl
  rw [bitwiseMem, if_pos hal, hmin]
  dsimp only
  have htl : min target.len other.len ≤ target.len := min_le_left _ _
  have hol : min target.len other.len ≤ other.len := min_le_right _ _
  generalize min target.len other.len = len at *
  split_ifs with hlong
  · obtain ⟨hbegin, hend, n, hwords⟩ := @optAlign_bounds sizeofSizeT target.addr len (.inr rfl)
      hlong
    obtain ⟨k, hk⟩ := Nat.exists_eq_add_of_le hbegin
    rw [byteLoop_eq k ⟨mem, target.addr, other.addr, []⟩ hk]
    have htgt := @iterate_byteStep_tgt op8 k ⟨mem, target.addr, other.addr, []⟩
    have hoth := @iterate_byteStep_oth op8 k ⟨mem, target.addr, other.addr, []⟩
    dsimp only at htgt hoth
    rw [hwords, hk] at hend
    obtain ⟨accesses, hloop, hin⟩ := @wordLoop_eq op8 op hop
      (optAlignEnd sizeofSizeT (target.addr + len)) n
      ((byteStep op8)^[k] ⟨mem, target.addr, other.addr, []⟩)
      (by rw [htgt, hwords, hk]) (by rw [htgt, hoth]; rw [sizeofSizeT] at hal ⊢; omega)
    rw [hloop, byteLoop_eq (len - (n * sizeofSizeT + k)) _ (by
      rw [Cursors.logged, iterate_byteStep_tgt, htgt]; omega)]
    refine ⟨accesses, ?_, fun a ha => ?_⟩
    · rw [iterate_byteStep_logged, ← Function.iterate_add_apply, ← Function.iterate_add_apply,
        show len - (n * sizeofSizeT + k) + n * sizeofSizeT + k = len by omega, Cursors.logged,
        iterate_byteStep_accesses, List.nil_append]
    · rw [htgt, hoth] at hin
      exact (hin a ha).imp (fun h => ⟨by have := h.1; omega, by have := h.2; omega⟩)
        fun h => ⟨by have := h.1; omega, by have := h.2; omega⟩
  · rw [byteLoop_eq len ⟨mem, target.addr, other.addr, []⟩ rfl, iterate_byteStep_accesses]
    exact ⟨[], rfl, fun a ha => absurd ha List.not_mem_nil⟩

end

/-! ## Counting -/

/-- What a `popcount` counts: the bits of a word of its size, and of a byte. -/
structure Popcount.Counts (pc : Popcount) : Prop where
  size : pc.size = 4 ∨ pc.size = 8
  word : ∀ bs : List Byte, bs.length = pc.size → pc.count (ofLE bs) = bitCounts bs
  byte : ∀ b : Byte, pc.count b.toNat = bitCount b

theorem counts_builtin : Popcount.builtin.Counts where
  size := .inr rfl
  word bs h := by
    rw [← countBits_eq]
    exact countP_testBit_ofLE (by rw [h]; rfl)
  byte b := by
    have h := @countP_testBit_ofLE [b] 64 (by simp)
    rw [countBits_eq, ofLE, ofLE, Nat.mul_zero, Nat.add_zero] at h
    exact h

/-- The built-in `popcount` on `unsigned int`. -/
def Popcount.builtinInt : Popcount where
  size := 4
  count i := (List.range 32).countP i.testBit

theorem counts_builtinInt : Popcount.builtinInt.Counts where
  size := .inl rfl
  word bs h := by
    rw [← countBits_eq]
    exact countP_testBit_ofLE (by rw [h]; rfl)
  byte b := by
    have h := @countP_testBit_ofLE [b] 32 (by simp)
    rw [countBits_eq, ofLE, ofLE, Nat.mul_zero, Nat.add_zero] at h
    exact h

/-- **The fallback** counts the bits of four bytes. -/
theorem fallback_word (a b c d : Byte) :
    Popcount.fallback.count (ofLE [a, b, c, d]) = bitCounts [a, b, c, d] := by
  have ha := nibbleBits_spec a
  have hb := nibbleBits_spec b
  have hc := nibbleBits_spec c
  have hd := nibbleBits_spec d
  have hpair : ∀ x : Byte, pairBits x.toNat < 2 ^ 8 := fun x => lt_of_le_of_lt (Nat.sub_le _ _) x.isLt
  rw [ofLE_four, Popcount.fallback]
  dsimp only
  generalize hi : BitVec.ofNat 32 (word a.toNat b.toNat c.toNat d.toNat) = i
  have h₀ : i.toNat = word a.toNat b.toNat c.toNat d.toNat := by
    have hlt := ofLE_lt [a, b, c, d]
    rw [ofLE_four, List.length_cons, List.length_cons, List.length_cons, List.length_singleton,
      show 256 ^ (1 + 1 + 1 + 1) = 2 ^ 32 by norm_num] at hlt
    rw [← hi, BitVec.toNat_ofNat, Nat.mod_eq_of_lt hlt]
  generalize hi₁ : i - (i >>> 1 &&& 0x55555555#32) = i₁
  have h₁ : i₁.toNat = word (pairBits a.toNat) (pairBits b.toNat) (pairBits c.toNat)
      (pairBits d.toNat) := by
    have hle : i >>> 1 &&& 0x55555555#32 ≤ i := by
      rw [BitVec.le_def, BitVec.toNat_and, BitVec.toNat_ushiftRight]
      exact Nat.and_le_left.trans (Nat.shiftRight_le _ _)
    rw [← hi₁, BitVec.toNat_sub_of_le hle, BitVec.toNat_and, BitVec.toNat_ushiftRight, h₀,
      ← pairs_word]
    rfl
  generalize hi₂ : (i₁ &&& 0x33333333#32) + (i₁ >>> 2 &&& 0x33333333#32) = i₂
  have h₂ : i₂.toNat = word (nibbleBits (pairBits a.toNat)) (nibbleBits (pairBits b.toNat))
      (nibbleBits (pairBits c.toNat)) (nibbleBits (pairBits d.toNat)) := by
    have hsum := nibbles_word (d := pairBits d.toNat) (hpair a) (hpair b) (hpair c)
    rw [← h₁] at hsum
    rw [← hi₂, BitVec.toNat_add, BitVec.toNat_and, BitVec.toNat_and, BitVec.toNat_ushiftRight,
      show (0x33333333#32).toNat = word 0x33 0x33 0x33 0x33 from rfl, hsum, Nat.mod_eq_of_lt]
    rw [word]
    omega
  generalize hi₃ : (i₂ + i₂ >>> 4) &&& 0x0F0F0F0F#32 = i₃
  have h₃ : i₃.toNat = word (bitCount a) (bitCount b) (bitCount c) (bitCount d) := by
    have hsum := bytes_word ⟨ha.1, ha.2.1⟩ ⟨hb.1, hb.2.1⟩ ⟨hc.1, hc.2.1⟩ ⟨hd.1, hd.2.1⟩
    rw [← h₂, ha.2.2, hb.2.2, hc.2.2, hd.2.2] at hsum
    have hlt : i₂.toNat + i₂.toNat >>> 4 < 2 ^ 32 := by
      rw [h₂, word, Nat.shiftRight_eq_div_pow]
      omega
    rw [← hi₃, BitVec.toNat_and, BitVec.toNat_add, BitVec.toNat_ushiftRight, Nat.mod_eq_of_lt hlt,
      show (0x0F0F0F0F#32).toNat = word 0x0f 0x0f 0x0f 0x0f from rfl, hsum]
  have ha8 := bitCount_le a
  have hb8 := bitCount_le b
  have hc8 := bitCount_le c
  have hd8 := bitCount_le d
  rw [BitVec.toNat_ushiftRight, BitVec.toNat_mul, h₃, Nat.shiftRight_eq_div_pow,
    show (0x01010101#32).toNat = 0x01010101 from rfl, sum_word (by omega)]
  simp only [bitCounts, List.map_cons, List.map_nil, List.sum_cons, List.sum_nil]
  omega

theorem counts_fallback : Popcount.fallback.Counts where
  size := .inl rfl
  word
    | [a, b, c, d], _ => fallback_word a b c d
  byte b := by
    have h := fallback_word b 0 0 0
    have h0 : bitCount 0#8 = 0 := rfl
    simpa [ofLE, bitCounts, h0] using h

section
variable {pc : Popcount} {mem : Mem}

theorem bitCounts_bytesAt_add (addr m n : ℕ) : bitCounts (bytesAt mem addr (m + n)) =
    bitCounts (bytesAt mem addr m) + bitCounts (bytesAt mem (addr + m) n) := by
  rw [bytesAt_add, bitCounts, List.map_append, List.sum_append]
  rfl

/-- The loop over bytes counts their bits. -/
theorem byteCountLoop_eq (hpc : pc.Counts) : ∀ (n : ℕ) (c : BitCounter), c.bits < SIZE_MAX + 1 →
    byteCountLoop pc mem (c.cur + n) c =
      ⟨c.cur + n, (c.bits + bitCounts (bytesAt mem c.cur n)) % (SIZE_MAX + 1), c.accesses⟩
  | 0, c, hbits => by
    rw [byteCountLoop, if_neg (by omega)]
    exact congrArg (BitCounter.mk _ · _) (Nat.mod_eq_of_lt hbits).symm
  | n + 1, c, hbits => by
    have ih := byteCountLoop_eq hpc n
      ⟨c.cur + 1, (c.bits + pc.count (mem c.cur).toNat) % (SIZE_MAX + 1), c.accesses⟩
      (Nat.mod_lt _ (Nat.succ_pos _))
    dsimp only at ih
    rw [byteCountLoop, if_pos (by omega), show c.cur + (n + 1) = c.cur + 1 + n by omega, ih,
      Nat.mod_add_mod, Nat.add_assoc c.bits, hpc.byte, Nat.add_comm n 1, bitCounts_bytesAt_add]
    rfl

/-- **The loop over words** counts the bits of their bytes. -/
theorem wordCountLoop_eq (hpc : pc.Counts) : ∀ (n : ℕ) (c : BitCounter), c.bits < SIZE_MAX + 1 →
    ∃ accesses, wordCountLoop pc mem (c.cur + n * pc.size) c =
        ⟨c.cur + n * pc.size,
          (c.bits + bitCounts (bytesAt mem c.cur (n * pc.size))) % (SIZE_MAX + 1),
          c.accesses ++ accesses⟩ ∧
      ∀ a ∈ accesses, a.Inside c.cur (n * pc.size)
  | 0, c, hbits => by
    refine ⟨[], ?_, fun a ha => absurd ha List.not_mem_nil⟩
    rw [wordCountLoop, if_neg (by omega), Nat.zero_mul, List.append_nil]
    exact congrArg (BitCounter.mk _ · _) (Nat.mod_eq_of_lt hbits).symm
  | n + 1, c, hbits => by
    have hpos : 0 < pc.size := by rcases hpc.size with h | h <;> omega
    have hsum : (n + 1) * pc.size = pc.size + n * pc.size := by rw [Nat.add_mul, Nat.one_mul]; omega
    obtain ⟨accesses, hloop, hin⟩ := wordCountLoop_eq hpc n
      ⟨c.cur + pc.size, (c.bits + pc.count (load mem pc.size c.cur)) % (SIZE_MAX + 1),
        c.accesses ++ [⟨c.cur, pc.size⟩]⟩ (Nat.mod_lt _ (Nat.succ_pos _))
    dsimp only at hloop hin
    refine ⟨⟨c.cur, pc.size⟩ :: accesses, ?_, fun a ha => ?_⟩
    · rw [wordCountLoop, if_pos ⟨by omega, hpos⟩, hsum, ← Nat.add_assoc, hloop, Nat.mod_add_mod,
        Nat.add_assoc c.bits, load, hpc.word _ (length_bytesAt _ _), bitCounts_bytesAt_add,
        List.append_assoc]
      rfl
    · rw [hsum]
      rcases List.mem_cons.1 ha with rfl | ha
      · exact ⟨le_rfl, by dsimp only; omega⟩
      · exact ⟨by have := (hin a ha).1; omega, by have := (hin a ha).2; omega⟩

/-- **The three loops** count the bits of the bytes, and stay inside the slice. -/
theorem popcount_eq (hpc : pc.Counts) {slice : MemSlice} (hlen : slice.len ≤ SIZE_MAX >>> 3) :
    ∃ accesses, popcountMem pc slice mem =
        some (bitCounts (bytesAt mem slice.addr slice.len), accesses) ∧
      ∀ a ∈ accesses, a.Inside slice.addr slice.len := by
  have hmax : bitCounts (bytesAt mem slice.addr slice.len) < SIZE_MAX + 1 := by
    have h := bitCounts_le (bytesAt mem slice.addr slice.len)
    rw [length_bytesAt] at h
    rw [SIZE_MAX, Nat.shiftRight_eq_div_pow] at hlen
    rw [SIZE_MAX]
    omega
  have h0 : 0 < SIZE_MAX + 1 := Nat.succ_pos _
  rw [popcountMem, if_pos hlen]
  dsimp only
  split_ifs with hlong
  · obtain ⟨hbegin, hend, n, hwords⟩ := @optAlign_bounds pc.size slice.addr slice.len hpc.size hlong
    obtain ⟨k, hk⟩ := Nat.exists_eq_add_of_le hbegin
    rw [hwords, hk] at hend ⊢
    have hhead := @byteCountLoop_eq pc mem hpc k ⟨slice.addr, 0, []⟩ h0
    dsimp only at hhead
    rw [Nat.zero_add] at hhead
    obtain ⟨accesses, hloop, hin⟩ := @wordCountLoop_eq pc mem hpc n
      ⟨slice.addr + k, bitCounts (bytesAt mem slice.addr k) % (SIZE_MAX + 1), []⟩ (Nat.mod_lt _ h0)
    dsimp only at hloop hin
    rw [Nat.mod_add_mod, ← bitCounts_bytesAt_add, List.nil_append] at hloop
    have htail := @byteCountLoop_eq pc mem hpc (slice.len - (k + n * pc.size))
      ⟨slice.addr + k + n * pc.size,
        bitCounts (bytesAt mem slice.addr (k + n * pc.size)) % (SIZE_MAX + 1), accesses⟩
      (Nat.mod_lt _ h0)
    dsimp only at htail
    rw [Nat.mod_add_mod, Nat.add_assoc slice.addr, ← bitCounts_bytesAt_add,
      show k + n * pc.size + (slice.len - (k + n * pc.size)) = slice.len by omega,
      Nat.mod_eq_of_lt hmax] at htail
    refine ⟨accesses, ?_, fun a ha => ?_⟩
    · rw [hhead, hloop, Nat.add_assoc slice.addr, show slice.addr + slice.len =
        slice.addr + (k + n * pc.size) + (slice.len - (k + n * pc.size)) by omega, htail]
    · exact ⟨by have := (hin a ha).1; omega, by have := (hin a ha).2; omega⟩
  · have hbytes := @byteCountLoop_eq pc mem hpc slice.len ⟨slice.addr, 0, []⟩ h0
    dsimp only at hbytes
    rw [hbytes, Nat.zero_add, Nat.mod_eq_of_lt hmax]
    exact ⟨[], rfl, fun a ha => absurd ha List.not_mem_nil⟩

end

/-! ## The fast paths -/

/-- The bytes of a slice in the memory. -/
def MemSlice.slice (s : MemSlice) (mem : Mem) : ByteSlice := ⟨s.addr, bytesAt mem s.addr s.len⟩

/-- The byte-wise operation: byte by byte from the start, for the shorter of both slices. -/
def bytewise (op8 : Byte → Byte → Byte) (target other : MemSlice) (mem : Mem) : Mem :=
  ((byteStep op8)^[min target.len other.len] ⟨mem, target.addr, other.addr, []⟩).mem

/-- The other slice is not read after it was written: it does not start before the target
    and reach into it. -/
def Unmixed (target other : MemSlice) : Prop :=
  target.addr ≤ other.addr ∨ other.addr + min target.len other.len ≤ target.addr

/-- The byte-wise operation changes the first bytes of the target, and nothing else. -/
theorem bytewise_eq {op8 : Byte → Byte → Byte} {target other : MemSlice} (mem : Mem)
    (h : Unmixed target other) : bytewise op8 target other mem = fun x =>
      if target.addr ≤ x ∧ x < target.addr + min target.len other.len then
        op8 (mem x) (mem (other.addr + (x - target.addr)))
      else mem x :=
  iterate_byteStep_mem fun i hi j hj => by
    dsimp only
    rcases h with h | h <;> omega

/-- **What is promised for an operation**: with slices that are aligned alike, it is the
    byte-wise operation, and no word access leaves the slices. -/
def OpIsBytewise (op8 : Byte → Byte → Byte)
    (run : MemSlice → MemSlice → Mem → Option (Mem × List Access)) : Prop :=
  ∀ (target other : MemSlice) (mem : Mem), target.addr % sizeofSizeT = other.addr % sizeofSizeT →
    ∃ accesses, run target other mem = some (bytewise op8 target other mem, accesses) ∧
      (Unmixed target other → ∀ x, bytewise op8 target other mem x =
        if target.addr ≤ x ∧ x < target.addr + min target.len other.len then
          op8 (mem x) (mem (other.addr + (x - target.addr)))
        else mem x) ∧
      ∀ a ∈ accesses, a.Inside target.addr target.len ∨ a.Inside other.addr other.len

/-- **What is promised for counting**: within the asserted length, it is the sum of the bit
    counts of the bytes, and no word access leaves the slice. -/
def CountIsBytewise (pc : Popcount) : Prop :=
  ∀ (slice : MemSlice) (mem : Mem), slice.len ≤ SIZE_MAX >>> 3 →
    ∃ accesses, popcountMem pc slice mem =
        some (((bytesAt mem slice.addr slice.len).map bitCount).sum, accesses) ∧
      ∀ a ∈ accesses, a.Inside slice.addr slice.len

theorem opIsBytewise {op8 : Byte → Byte → Byte} {op : ℕ → ℕ → ℕ} (hop : Bytewise op8 op) :
    OpIsBytewise op8 (bitwiseMem op8 op) := by
  intro target other mem hal
  obtain ⟨accesses, hrun, hin⟩ := @bitwise_eq op8 op hop target other mem hal
  exact ⟨accesses, hrun, fun h x => by rw [bytewise_eq mem h], hin⟩

/-- **The word-wise code is byte-wise code**, for every alignment and length. -/
theorem wordwise_eq_bytewise : OpIsBytewise (· ||| ·) bitwiseOrMem ∧
    OpIsBytewise (· &&& ·) bitwiseAndMem ∧
    ∀ pc ∈ [Popcount.builtin, Popcount.builtinInt, Popcount.fallback], CountIsBytewise pc := by
  refine ⟨opIsBytewise bytewise_or, opIsBytewise bytewise_and, fun pc hpc slice mem hlen => ?_⟩
  have hcounts : pc.Counts := by
    simp only [List.mem_cons, List.not_mem_nil, or_false] at hpc
    rcases hpc with rfl | rfl | rfl
    · exact counts_builtin
    · exact counts_builtinInt
    · exact counts_fallback
  exact popcount_eq hcounts hlen

/-- The operation on slices is the one on the memory. -/
theorem byteSliceBitwise_slice {op8 : Byte → Byte → Byte} {op : ℕ → ℕ → ℕ} (hop : Bytewise op8 op)
    {target other : MemSlice} (mem : Mem)
    (hal : target.addr % sizeofSizeT = other.addr % sizeofSizeT) (h : Unmixed target other) :
    byteSliceBitwise op8 op (target.slice mem) (other.slice mem) =
      some (target.slice (bytewise op8 target other mem)) := by
  rw [byteSliceBitwise_eq hop (t := target.slice mem) (o := other.slice mem) hal]
  refine congrArg (fun bytes => some (ByteSlice.mk target.addr bytes)) ?_
  have hlen : ∀ s : MemSlice, (s.slice mem).len = s.len := fun s => length_bytesAt _ _
  have hbytes : ∀ s : MemSlice, (s.slice mem).bytes = bytesAt mem s.addr s.len := fun _ => rfl
  rw [hlen, hlen, hbytes, hbytes]
  refine List.ext_getElem ?_ fun i hi hi' => ?_
  · simp only [List.length_append, List.length_zipWith, List.length_drop, length_bytesAt]
    omega
  · simp only [length_bytesAt, List.length_append, List.length_zipWith, List.length_drop] at hi
    rw [getElem_bytesAt, bytewise_eq mem h]
    dsimp only
    have hzip : (List.zipWith op8 (bytesAt mem target.addr target.len)
        (bytesAt mem other.addr other.len)).length = min target.len other.len := by
      rw [List.length_zipWith, length_bytesAt, length_bytesAt]
    by_cases hlow : i < min target.len other.len
    · rw [List.getElem_append_left (by rwa [hzip]), List.getElem_zipWith, getElem_bytesAt,
        getElem_bytesAt, if_pos (by omega), Nat.add_sub_cancel_left]
    · rw [List.getElem_append_right (by rw [hzip]; omega), List.getElem_drop, getElem_bytesAt, hzip,
        if_neg (by omega), Nat.add_sub_cancel' (by omega)]

/-- Counting in a slice is counting in the memory. -/
theorem byteSlicePopcount_slice {slice : MemSlice} (mem : Mem) (hlen : slice.len ≤ SIZE_MAX >>> 3) :
    ∃ accesses, popcountMem .builtin slice mem =
      some (byteSlicePopcount .builtin (slice.slice mem), accesses) := by
  obtain ⟨accesses, hrun, -⟩ := @popcount_eq .builtin mem counts_builtin slice hlen
  refine ⟨accesses, ?_⟩
  rw [hrun, byteSlicePopcount_eq, countBits_eq]
  rfl

end Honas

/-
  The sparse encoding of a HyperLogLog.

  `Opcode` is the abstract syntax of the encoding: each opcode stands for a
  non-empty run of equal registers, and its operands are within the limits of
  the format.  A counter is well formed when its bytes are the encoding of a
  list of opcodes that covers all registers; every loop over the bytes then
  follows that list.

  `hllSparseAdd_spec`: on a well-formed counter `hllSparseAdd` does not fail,
  the result is well formed again (sparse or dense), and one register has been
  raised to the pattern length.
-/
import Honas.HyperloglogDense

namespace Honas

open Bits

/-! ## Opcodes -/

/-- An opcode; `n` is the length of its run minus one, and `v` its value minus
    one. -/
inductive Opcode where
  | zero (n : Fin 64)
  | xzero (n : Fin 16384)
  | val (v : Fin 32) (n : Fin 4)

namespace Opcode

/-- The bytes of an opcode. -/
def bytes : Opcode → List Byte
  | zero n => hllSparseZeroSet (n + 1)
  | xzero n => hllSparseXzeroSet (n + 1)
  | val v n => hllSparseValSet (v + 1) (n + 1)

/-- The length of the run minus one. -/
def run : Opcode → ℕ
  | zero n => n
  | xzero n => n
  | val _ n => n

/-- The value of the registers of the run. -/
def value : Opcode → ℕ
  | zero _ | xzero _ => 0
  | val v _ => v + 1

/-- The registers of an opcode. -/
def regs (o : Opcode) : List ℕ := List.replicate (o.run + 1) o.value

end Opcode

/-- The bytes of a list of opcodes. -/
def encode (ops : List Opcode) : List Byte := ops.flatMap Opcode.bytes

/-- The registers of a list of opcodes. -/
def expand (ops : List Opcode) : List ℕ := ops.flatMap Opcode.regs

@[simp] theorem encode_nil : encode [] = [] := rfl
@[simp] theorem encode_cons (o : Opcode) (ops : List Opcode) :
    encode (o :: ops) = o.bytes ++ encode ops := rfl
@[simp] theorem encode_append (a b : List Opcode) : encode (a ++ b) = encode a ++ encode b :=
  List.flatMap_append
@[simp] theorem expand_nil : expand [] = [] := rfl
@[simp] theorem expand_cons (o : Opcode) (ops : List Opcode) :
    expand (o :: ops) = o.regs ++ expand ops := rfl
@[simp] theorem expand_append (a b : List Opcode) : expand (a ++ b) = expand a ++ expand b :=
  List.flatMap_append
@[simp] theorem Opcode.length_regs (o : Opcode) : o.regs.length = o.run + 1 := by simp [regs]

/-! ## What the macros read -/

theorem zero_bytes (n : Fin 64) : ∃ b, (Opcode.zero n).bytes = [b] ∧ hllSparseIsZero b = true ∧
    hllSparseIsXzero b = false ∧ hllSparseIsVal b = false ∧ hllSparseZeroLen b = n + 1 :=
  ⟨_, rfl, by revert n; decide⟩

theorem val_bytes (v : Fin 32) (n : Fin 4) : ∃ b, (Opcode.val v n).bytes = [b] ∧
    hllSparseIsZero b = false ∧ hllSparseIsXzero b = false ∧ hllSparseIsVal b = true ∧
    hllSparseValValue b = v + 1 ∧ hllSparseValLen b = n + 1 :=
  ⟨_, rfl, by revert v n; decide⟩

theorem xzero_head : ∀ m : Fin 64, hllSparseIsZero (BitVec.ofNat 8 (m ||| 0x40)) = false ∧
    hllSparseIsXzero (BitVec.ofNat 8 (m ||| 0x40)) = true ∧
    hllSparseIsVal (BitVec.ofNat 8 (m ||| 0x40)) = false ∧
    (BitVec.ofNat 8 (m ||| 0x40) &&& 0x3f#8).toNat = m := by decide

theorem xzero_bytes (n : Fin 16384) : ∃ b b1, (Opcode.xzero n).bytes = [b, b1] ∧
    hllSparseIsZero b = false ∧ hllSparseIsXzero b = true ∧ hllSparseIsVal b = false ∧
    hllSparseXzeroLen b b1 = n + 1 := by
  have hn : (n : ℕ) < 16384 := n.isLt
  have hhi : (n : ℕ) >>> 8 < 64 := by rw [Nat.shiftRight_eq_div_pow]; omega
  obtain ⟨h1, h2, h3, h4⟩ := xzero_head ⟨_, hhi⟩
  refine ⟨_, _, rfl, h1, h2, h3, ?_⟩
  rw [Nat.add_sub_cancel, hllSparseXzeroLen]
  dsimp only at h4
  rw [h4, BitVec.toNat_ofNat, show (0xff : ℕ) = 2 ^ 8 - 1 by rfl, Nat.and_two_pow_sub_one_eq_mod,
    Nat.mod_mod, ← Nat.shiftLeft_add_eq_or_of_lt (Nat.mod_lt _ (by decide)),
    Nat.shiftLeft_eq, Nat.shiftRight_eq_div_pow]
  omega

theorem Opcode.bytes_ne_nil : ∀ o : Opcode, o.bytes ≠ []
  | zero _ | xzero _ | val _ _ => by simp [bytes, hllSparseZeroSet, hllSparseXzeroSet,
      hllSparseValSet]

/-- The first opcode of a sequence of bytes. -/
def Opcode.read : List Byte → Option (Opcode × List Byte)
  | [] => none
  | b :: p =>
    if hllSparseIsZero b then some (zero (Fin.ofNat 64 (hllSparseZeroLen b - 1)), p)
    else if hllSparseIsXzero b then
      match p with
      | [] => none
      | b1 :: p => some (xzero (Fin.ofNat 16384 (hllSparseXzeroLen b b1 - 1)), p)
    else
      some (val (Fin.ofNat 32 (hllSparseValValue b - 1)) (Fin.ofNat 4 (hllSparseValLen b - 1)), p)

theorem Opcode.read_bytes (o : Opcode) (p : List Byte) : read (o.bytes ++ p) = some (o, p) := by
  cases o with
  | zero n =>
    obtain ⟨b, hb, h1, -, -, h4⟩ := zero_bytes n
    rw [hb, List.singleton_append, read.eq_def]
    dsimp only
    rw [if_pos h1, h4, Nat.add_sub_cancel, Fin.ofNat_val_eq_self]
  | xzero n =>
    obtain ⟨b, b1, hb, h1, h2, -, h4⟩ := xzero_bytes n
    rw [hb, List.cons_append, List.singleton_append, read, if_neg (by simp [h1]), if_pos h2, h4,
      Nat.add_sub_cancel, Fin.ofNat_val_eq_self]
  | val v n =>
    obtain ⟨b, hb, h1, h2, -, h4, h5⟩ := val_bytes v n
    rw [hb, List.singleton_append, read.eq_def]
    dsimp only
    rw [if_neg (by simp [h1]), if_neg (by simp [h2]), h4, h5, Nat.add_sub_cancel, Nat.add_sub_cancel,
      Fin.ofNat_val_eq_self, Fin.ofNat_val_eq_self]

/-- **The opcodes can be read back.** -/
theorem encode_injective : ∀ {ops ops' : List Opcode}, encode ops = encode ops' → ops = ops'
  | [], [], _ => rfl
  | [], o :: ops, h => absurd (List.append_eq_nil_iff.1 h.symm).1 o.bytes_ne_nil
  | o :: ops, [], h => absurd (List.append_eq_nil_iff.1 h).1 o.bytes_ne_nil
  | o :: ops, o' :: ops', h => by
    rw [encode_cons, encode_cons] at h
    have hread := o.read_bytes (encode ops)
    rw [h, o'.read_bytes] at hread
    obtain ⟨rfl, hrest⟩ := Prod.mk.inj (Option.some.inj hread)
    rw [encode_injective hrest.symm]

/-- A run of zero registers is written as one opcode. -/
theorem hllSparseZeros_bytes {len : ℕ} (h0 : 0 < len) (h : len ≤ 16384) :
    ∃ o : Opcode, hllSparseZeros len = o.bytes ∧ o.regs = List.replicate len 0 := by
  unfold hllSparseZeros hllSparseZeroMaxLen
  split_ifs with hl
  · refine ⟨.xzero ⟨len - 1, by omega⟩, ?_, ?_⟩
    · simp only [Opcode.bytes]; congr 1; omega
    · simp only [Opcode.regs, Opcode.run, Opcode.value]; congr 1; omega
  · refine ⟨.zero ⟨len - 1, by omega⟩, ?_, ?_⟩
    · simp only [Opcode.bytes]; congr 1; omega
    · simp only [Opcode.regs, Opcode.run, Opcode.value]; congr 1; omega

/-- A run of equal values is written as one opcode. -/
theorem hllSparseValSet_bytes (v len : ℕ) (hv0 : 0 < v) (hv : v ≤ 32) (h0 : 0 < len) (h : len ≤ 4) :
    ∃ o : Opcode, hllSparseValSet v len = o.bytes ∧ o.regs = List.replicate len v := by
  refine ⟨.val ⟨v - 1, by omega⟩ ⟨len - 1, by omega⟩, ?_, ?_⟩
  · simp only [Opcode.bytes]; congr 1 <;> omega
  · simp only [Opcode.regs, Opcode.run, Opcode.value]; congr 1 <;> omega

/-! ## Conversion to the dense encoding -/

theorem hllDenseSetRun_spec {v : ℕ} (hv : v < 64) : ∀ (n : ℕ) (dense : List Byte) (idx : ℕ),
    dense.length = hllDenseSize → idx + n ≤ hllRegisters →
    (hllDenseSetRun v n dense idx).length = hllDenseSize ∧
      ∀ i, bitAt (hllDenseSetRun v n dense idx) i =
        if 6 * idx ≤ i ∧ i < 6 * (idx + n) then v.testBit (i % 6) else bitAt dense i
  | 0, dense, idx, hd, _ => ⟨hd, fun i => by rw [if_neg (by omega), hllDenseSetRun]⟩
  | n + 1, dense, idx, hd, hi => by
    have hp : 6 * idx / 8 + 1 < dense.length := by
      rw [hd]; unfold hllDenseSize hllRegisters hllBits at *; omega
    obtain ⟨hl, hb⟩ := hllDenseSetRun_spec hv n (hllDenseSetRegister dense idx v) (idx + 1)
      (by simpa using hd) (by omega)
    refine ⟨hl, fun i => ?_⟩
    rw [hllDenseSetRun, hb, bitAt_hllDenseSetRegister hv hp]
    by_cases h1 : 6 * (idx + 1) ≤ i ∧ i < 6 * (idx + 1 + n)
    · rw [if_pos h1, if_pos (by omega)]
    · rw [if_neg h1]
      by_cases h2 : 6 * idx ≤ i ∧ i < 6 * idx + 6
      · rw [if_pos h2, if_pos (by omega), show i - 6 * idx = i % 6 by omega]
      · rw [if_neg h2, if_neg (by omega)]

/-- The bits of registers packed one after the other. -/
def packedBit (regs : ℕ → ℕ) (i : ℕ) : Bool := (regs (i / 6)).testBit (i % 6)

/-- The registers of a list, by their numbers. -/
def ofRegs (l : List ℕ) (r : ℕ) : ℕ := l.getD r 0

theorem packedBit_replicate_append (n v : ℕ) (l : List ℕ) (i : ℕ) :
    packedBit (ofRegs (List.replicate n v ++ l)) i =
      if i < 6 * n then v.testBit (i % 6) else packedBit (ofRegs l) (i - 6 * n) := by
  unfold packedBit ofRegs
  simp only [List.getD_eq_getElem?_getD]
  split_ifs with h
  · rw [List.getElem?_append_left (by simp; omega), List.getElem?_replicate, if_pos (by omega),
      Option.getD_some]
  · rw [List.getElem?_append_right (by simp; omega), List.length_replicate,
      show (i - 6 * n) / 6 = i / 6 - n by omega, show (i - 6 * n) % 6 = i % 6 by omega]

theorem Opcode.value_lt : ∀ o : Opcode, o.value < 64
  | zero _ | xzero _ => by simp [value]
  | val v _ => by simp only [value]; omega

/-- One opcode: what the loop does with its bytes. -/
theorem hllSparseToDenseLoop_step (o : Opcode) (rest dense : List Byte) (idx : ℕ) :
    hllSparseToDenseLoop (o.bytes ++ rest) dense idx = hllSparseToDenseLoop rest
      (if o.value = 0 then dense else hllDenseSetRun o.value (o.run + 1) dense idx)
      (idx + o.run + 1) := by
  cases o with
  | zero n =>
    obtain ⟨b, hb, h1, -, -, h4⟩ := zero_bytes n
    rw [hb, List.singleton_append, hllSparseToDenseLoop.eq_def]
    dsimp only
    rw [if_pos h1, h4]; rfl
  | xzero n =>
    obtain ⟨b, b1, hb, h1, h2, -, h4⟩ := xzero_bytes n
    rw [hb, List.cons_append, List.singleton_append, hllSparseToDenseLoop, if_neg (by simp [h1]),
      if_pos h2]
    simp only [h4]; rfl
  | val v n =>
    obtain ⟨b, hb, h1, h2, -, h4, h5⟩ := val_bytes v n
    rw [hb, List.singleton_append, hllSparseToDenseLoop.eq_def]
    dsimp only
    rw [if_neg (by simp [h1]), if_neg (by simp [h2]), h4, h5]; rfl

theorem hllSparseToDenseLoop_spec : ∀ (ops : List Opcode) (dense : List Byte) (idx : ℕ),
    dense.length = hllDenseSize → idx + (expand ops).length ≤ hllRegisters →
    (∀ i, 6 * idx ≤ i → bitAt dense i = false) →
    ∃ dense', hllSparseToDenseLoop (encode ops) dense idx =
        some (dense', idx + (expand ops).length) ∧ dense'.length = hllDenseSize ∧
      ∀ i, bitAt dense' i =
        if i < 6 * idx then bitAt dense i else packedBit (ofRegs (expand ops)) (i - 6 * idx)
  | [], dense, idx, hd, _, hz => by
    refine ⟨dense, rfl, hd, fun i => ?_⟩
    split_ifs with h
    · rfl
    · simp [hz i (not_lt.1 h), packedBit, ofRegs]
  | o :: ops, dense, idx, hd, hi, hz => by
    rw [expand_cons, List.length_append, o.length_regs] at hi
    set dense₁ := if o.value = 0 then dense else hllDenseSetRun o.value (o.run + 1) dense idx
      with hd₁
    have hrun := hllDenseSetRun_spec o.value_lt (o.run + 1) dense idx hd (by omega)
    have hlen : dense₁.length = hllDenseSize := by
      rw [hd₁]; split_ifs
      exacts [hd, hrun.1]
    have hbit : ∀ i, bitAt dense₁ i = if 6 * idx ≤ i ∧ i < 6 * (idx + (o.run + 1)) then
        o.value.testBit (i % 6) else bitAt dense i := by
      intro i
      rw [hd₁]; split_ifs with h1 h2 h2
      · rw [h1, hz i h2.1, Nat.zero_testBit]
      · rfl
      · rw [hrun.2, if_pos h2]
      · rw [hrun.2, if_neg h2]
    obtain ⟨dense', he, hl, hb⟩ := hllSparseToDenseLoop_spec ops dense₁ (idx + o.run + 1) hlen
      (by omega) fun i h => by rw [hbit, if_neg (by omega), hz i (by omega)]
    refine ⟨dense', ?_, hl, fun i => ?_⟩
    · rw [encode_cons, hllSparseToDenseLoop_step, he, expand_cons, List.length_append,
        o.length_regs]
      congr 2; omega
    · rw [hb, expand_cons, Opcode.regs, packedBit_replicate_append, hbit]
      by_cases h1 : i < 6 * idx
      · rw [if_pos (by omega), if_neg (by omega), if_pos h1]
      · rw [if_neg h1]
        by_cases h2 : i < 6 * (idx + o.run + 1)
        · rw [if_pos h2, if_pos (by omega), if_pos (by omega)]
          congr 1; omega
        · rw [if_neg h2, if_neg (by omega)]
          congr 1; omega

/-- The bytes are opcodes that cover all registers and hold the values `regs`. -/
def SparseRegs (bytes : List Byte) (regs : ℕ → ℕ) : Prop :=
  ∃ ops, bytes = encode ops ∧ (expand ops).length = hllRegisters ∧
    ∀ r, r < hllRegisters → ofRegs (expand ops) r = regs r

/-- **Conversion to the dense encoding packs the registers.** -/
theorem hllSparseToDense_spec {hll : Hll} {regs : ℕ → ℕ} (he : hll.encoding = .sparse)
    (hw : SparseRegs hll.registers.bytes regs) :
    ∃ dense, hllSparseToDense hll =
        some ({ hll with registers := ⟨0, dense⟩, encoding := .dense }, true) ∧
      dense.length = hllDenseSize ∧
      ∀ i, bitAt dense i = (decide (i < 6 * hllRegisters) && packedBit regs i) := by
  obtain ⟨ops, hb, hl, hr⟩ := hw
  obtain ⟨dense, hd, hlen, hbit⟩ := hllSparseToDenseLoop_spec ops (List.replicate hllDenseSize 0) 0
    (by simp) (by omega) fun i _ => bitAt_replicate _ _
  refine ⟨dense, ?_, hlen, fun i => ?_⟩
  · rw [Nat.zero_add, hl] at hd
    rw [hllSparseToDense, he]
    simp only [hb, hd]
    rfl
  · rw [hbit, if_neg (by omega), Nat.mul_zero, Nat.sub_zero]
    by_cases hi : i < 6 * hllRegisters
    · rw [packedBit, packedBit, hr _ (by omega)]; simp [hi]
    · rw [packedBit, ofRegs, List.getD_eq_getElem?_getD, List.getElem?_eq_none (by omega)]
      simp [hi]

/-! ## Locating a register -/

/-- One opcode: either it covers the register, or the search goes on after it. -/
theorem hllSparseLocate_step (index : ℕ) (o : Opcode) (rest : List Byte) (p first : ℕ)
    (prev : Option ℕ) :
    hllSparseLocate index (o.bytes ++ rest) p first prev =
      if index ≤ first + o.run then some ⟨p, first, o.run + 1, prev⟩
      else hllSparseLocate index rest (p + o.bytes.length) (first + (o.run + 1)) (some p) := by
  cases o with
  | zero n =>
    obtain ⟨b, hb, h1, -, -, h4⟩ := zero_bytes n
    rw [hb, List.singleton_append, hllSparseLocate.eq_def]
    simp only [h1, h4, Bool.true_or, if_true]
    rfl
  | xzero n =>
    obtain ⟨b, b1, hb, h1, -, h3, h4⟩ := xzero_bytes n
    rw [hb, List.cons_append, List.singleton_append, hllSparseLocate.eq_def]
    simp only [h1, h3, h4, Bool.or_self, Bool.false_eq_true, if_false]
    rfl
  | val v n =>
    obtain ⟨b, hb, h1, -, h3, -, h5⟩ := val_bytes v n
    rw [hb, List.singleton_append, hllSparseLocate.eq_def]
    simp only [h1, h3, h5, Bool.or_true, Bool.false_eq_true, if_true, if_false]
    rfl

/-- **Locating**: the opcode that covers the register is found, with the first
    register of its run and the position of the opcode before it. -/
theorem hllSparseLocate_spec {index : ℕ} : ∀ (ops : List Opcode) (p first : ℕ) (prev : Option ℕ),
    first ≤ index → index < first + (expand ops).length →
    ∃ pre o post prev', ops = pre ++ o :: post ∧
      hllSparseLocate index (encode ops) p first prev =
        some ⟨p + (encode pre).length, first + (expand pre).length, o.run + 1, prev'⟩ ∧
      first + (expand pre).length ≤ index ∧ index ≤ first + (expand pre).length + o.run ∧
      (pre = [] ∧ prev' = prev ∨
        ∃ pre₁ q, pre = pre₁ ++ [q] ∧ prev' = some (p + (encode pre₁).length))
  | [], p, first, prev, h1, h2 => by simp at h2; omega
  | o :: ops, p, first, prev, h1, h2 => by
    rw [encode_cons, hllSparseLocate_step]
    split_ifs with h
    · exact ⟨[], o, ops, prev, rfl, by simp, by simpa using h1, by simpa using h, .inl ⟨rfl, rfl⟩⟩
    · rw [expand_cons, List.length_append, o.length_regs] at h2
      obtain ⟨pre, o', post, prev', rfl, he, h3, h4, h5⟩ := hllSparseLocate_spec ops
        (p + o.bytes.length) (first + (o.run + 1)) (some p)
        (show first + (o.run + 1) ≤ index by omega) (by omega)
      refine ⟨o :: pre, o', post, prev', rfl, ?_, ?_, ?_, .inr ?_⟩
      · rw [he, encode_cons, expand_cons, List.length_append, List.length_append, o.length_regs,
          Nat.add_assoc, Nat.add_assoc]
      · rw [expand_cons, List.length_append, o.length_regs]; omega
      · rw [expand_cons, List.length_append, o.length_regs]; omega
      · rcases h5 with ⟨rfl, rfl⟩ | ⟨pre₁, q, rfl, rfl⟩
        · exact ⟨[], o, rfl, by simp⟩
        · exact ⟨o :: pre₁, q, rfl, by simp [Nat.add_assoc]⟩

/-! ## Splitting and merging -/

theorem set_replicate (n v c : ℕ) {i : ℕ} (h : i ≤ n) :
    (List.replicate (n + 1) v).set i c = List.replicate i v ++ c :: List.replicate (n - i) v := by
  rw [List.set_eq_take_append_cons_drop, if_pos (by simp; omega), List.take_replicate,
    List.drop_replicate, min_eq_left (by omega), show n + 1 - (i + 1) = n - i by omega]

/-- **Splitting**: the opcodes of step 2 are those of the run with one register
    replaced. -/
theorem hllSparseSplit_spec {write : ℕ → List Byte} {v n count index first : ℕ}
    (hw : ∀ len, 0 < len → len ≤ n →
      ∃ o : Opcode, write len = o.bytes ∧ o.regs = List.replicate len v)
    (hc0 : 0 < count) (hc : count ≤ 32) (h1 : first ≤ index) (h2 : index ≤ first + n) :
    ∃ seq, hllSparseSplit write count index first (first + n) = encode seq ∧
      expand seq = (List.replicate (n + 1) v).set (index - first) count := by
  have hpart : ∀ (b : Prop) [Decidable b] (len : ℕ), len ≤ n → (b ↔ len ≠ 0) →
      ∃ seq, (if b then write len else []) = encode seq ∧ expand seq = List.replicate len v := by
    intro b _ len hlen hb
    split_ifs with h
    · obtain ⟨o, ho, hr⟩ := hw len (Nat.pos_of_ne_zero (hb.1 h)) hlen
      exact ⟨[o], by simp [ho], by simp [hr]⟩
    · exact ⟨[], rfl, by rw [not_not.1 (mt hb.2 h)]; rfl⟩
  obtain ⟨s₁, hs₁, hr₁⟩ := hpart (index ≠ first) (index - first) (by omega) (by omega)
  obtain ⟨s₂, hs₂, hr₂⟩ := hpart (index ≠ first + n) (first + n - index) (by omega) (by omega)
  obtain ⟨o, ho, hr⟩ := hllSparseValSet_bytes _ 1 hc0 hc (by decide) (by decide)
  refine ⟨s₁ ++ o :: s₂, ?_, ?_⟩
  · rw [hllSparseSplit, hs₁, hs₂, ho, encode_append, encode_cons, List.append_assoc]
  · rw [set_replicate n v count (by omega), expand_append, expand_cons, hr₁, hr₂, hr,
      show n - (index - first) = first + n - index by omega]
    rfl

theorem hllSparseMerge_other {scanlen : ℕ} {o : Opcode} {rest : List Byte} (ho : o.value = 0) :
    hllSparseMerge (scanlen + 1) (o.bytes ++ rest) = o.bytes ++ hllSparseMerge scanlen rest := by
  cases o with
  | zero n =>
    obtain ⟨b, hb, h1, h2, -, -⟩ := zero_bytes n
    rw [hb, List.singleton_append, hllSparseMerge.eq_def]
    dsimp only
    rw [if_neg (by simp [h2]), if_pos h1]
    rfl
  | xzero n =>
    obtain ⟨b, b1, hb, -, h2, -, -⟩ := xzero_bytes n
    rw [hb, List.cons_append, List.singleton_append, hllSparseMerge, if_pos h2]
    rfl
  | val v n => simp [Opcode.value] at ho

/-- Two neighbours that fit into one opcode. -/
def Opcode.merge : Opcode → Opcode → Option Opcode
  | .val v n, .val w m =>
    if h : v = w ∧ (n : ℕ) + 1 + (m + 1) ≤ 4 then some (.val v ⟨n + m + 1, by omega⟩) else none
  | _, _ => none

/-- Step 4 of `hllSparseAdd` on the opcodes: merge neighbours, scanning up to
    `scanlen` opcodes. -/
def mergeOps : ℕ → List Opcode → List Opcode
  | 0, ops => ops
  | _ + 1, [] => []
  | _ + 1, [o] => [o]
  | scanlen + 1, o :: o' :: ops =>
    match o.merge o' with
    | some both => mergeOps scanlen (both :: ops)
    | none => o :: mergeOps scanlen (o' :: ops)

theorem Opcode.merge_regs {o o' both : Opcode} (h : o.merge o' = some both) :
    both.regs = o.regs ++ o'.regs := by
  cases o with
  | zero n => cases h
  | xzero n => cases h
  | val v n =>
    cases o' with
    | zero m => cases h
    | xzero m => cases h
    | val w m =>
      rw [merge] at h
      split_ifs at h with hfit
      obtain rfl := Option.some.inj h
      obtain ⟨rfl, -⟩ := hfit
      simp only [regs, run, value]
      rw [← List.replicate_add]
      congr 1
      omega

/-- What the scan does with an opcode and the one after it. -/
theorem hllSparseMerge_cons (scanlen : ℕ) (o o' : Opcode) (rest : List Byte) :
    hllSparseMerge (scanlen + 1) (o.bytes ++ (o'.bytes ++ rest)) =
      match o.merge o' with
      | some both => hllSparseMerge scanlen (both.bytes ++ rest)
      | none => o.bytes ++ hllSparseMerge scanlen (o'.bytes ++ rest) := by
  cases o with
  | zero n => exact hllSparseMerge_other rfl
  | xzero n => exact hllSparseMerge_other rfl
  | val v n =>
    obtain ⟨b, hb, h1, h2, -, h4, h5⟩ := val_bytes v n
    cases o' with
    | zero m =>
      obtain ⟨c, hc, -, -, hc3, -⟩ := zero_bytes m
      rw [hb, hc, List.singleton_append, List.singleton_append, hllSparseMerge,
        if_neg (by simp [h2]), if_neg (by simp [h1])]
      simp only [hc3, Bool.false_eq_true, false_and, if_false, Opcode.merge]
      rfl
    | xzero m =>
      obtain ⟨c, c1, hc, -, -, hc3, -⟩ := xzero_bytes m
      rw [hb, hc, List.singleton_append, List.cons_append, hllSparseMerge,
        if_neg (by simp [h2]), if_neg (by simp [h1])]
      simp only [hc3, Bool.false_eq_true, false_and, if_false, Opcode.merge]
      rfl
    | val w m =>
      obtain ⟨c, hc, -, -, hc3, hc4, hc5⟩ := val_bytes w m
      rw [hb, hc, List.singleton_append, List.singleton_append, hllSparseMerge,
        if_neg (by simp [h2]), if_neg (by simp [h1])]
      simp only [hc3, h4, hc4, h5, hc5, true_and, Opcode.merge]
      by_cases hm : v = w ∧ (n : ℕ) + 1 + (m + 1) ≤ 4
      · rw [dif_pos hm, if_pos ⟨by rw [hm.1], hm.2⟩]
        have hlen : (n : ℕ) + 1 + (m + 1) = n + m + 1 + 1 := by omega
        rw [hlen]
        rfl
      · rw [dif_neg hm, if_neg (fun h => hm ⟨Fin.ext (Nat.add_right_cancel h.1), h.2⟩)]
        rfl

/-- The scan ends at the last opcode. -/
theorem hllSparseMerge_last (scanlen : ℕ) (o : Opcode) :
    hllSparseMerge (scanlen + 1) o.bytes = o.bytes := by
  have hnil : hllSparseMerge scanlen [] = [] := by cases scanlen <;> rfl
  have hother : o.value = 0 → hllSparseMerge (scanlen + 1) (o.bytes ++ []) = o.bytes ++ [] :=
    fun h => by rw [hllSparseMerge_other h, hnil]
  rw [List.append_nil] at hother
  cases o with
  | zero n => exact hother rfl
  | xzero n => exact hother rfl
  | val v n =>
    obtain ⟨b, hb, h1, h2, -⟩ := val_bytes v n
    rw [hb, hllSparseMerge.eq_def]
    dsimp only
    rw [if_neg (by simp [h2]), if_neg (by simp [h1])]

/-- **The scan merges opcodes.** -/
theorem hllSparseMerge_encode : ∀ (scanlen : ℕ) (ops : List Opcode),
    hllSparseMerge scanlen (encode ops) = encode (mergeOps scanlen ops)
  | 0, _ => rfl
  | _ + 1, [] => rfl
  | scanlen + 1, [o] => by
    rw [mergeOps, encode_cons, encode_nil, List.append_nil]
    exact hllSparseMerge_last scanlen o
  | scanlen + 1, o :: o' :: ops => by
    rw [encode_cons, encode_cons, hllSparseMerge_cons, mergeOps]
    cases o.merge o' with
    | some both => exact hllSparseMerge_encode scanlen (both :: ops)
    | none =>
      dsimp only
      rw [← encode_cons, hllSparseMerge_encode scanlen (o' :: ops), ← encode_cons]

theorem expand_mergeOps : ∀ (scanlen : ℕ) (ops : List Opcode),
    expand (mergeOps scanlen ops) = expand ops
  | 0, _ => rfl
  | _ + 1, [] => rfl
  | _ + 1, [_] => rfl
  | scanlen + 1, o :: o' :: ops => by
    rw [mergeOps]
    cases hm : o.merge o' with
    | some both =>
      dsimp only
      rw [expand_mergeOps scanlen, expand_cons, Opcode.merge_regs hm, expand_cons, expand_cons,
        List.append_assoc]
    | none =>
      dsimp only
      rw [expand_cons, expand_mergeOps scanlen, ← expand_cons]

/-- **Merging** neighbours does not change the registers. -/
theorem hllSparseMerge_spec (scanlen : ℕ) (ops : List Opcode) :
    ∃ ops', hllSparseMerge scanlen (encode ops) = encode ops' ∧ expand ops' = expand ops :=
  ⟨_, hllSparseMerge_encode scanlen ops, expand_mergeOps scanlen ops⟩

/-! ## Adding a hash -/

/-- Opcodes before the located one, its new opcodes, and the opcodes after it. -/
theorem expand_set {pre post : List Opcode} {o : Opcode} {seq : List Opcode} {index count : ℕ}
    (h1 : (expand pre).length ≤ index) (h2 : index ≤ (expand pre).length + o.run)
    (hs : expand seq = o.regs.set (index - (expand pre).length) count) :
    expand (pre ++ seq ++ post) = (expand (pre ++ o :: post)).set index count := by
  have hlt : index - (expand pre).length < o.regs.length := by rw [o.length_regs]; omega
  rw [expand_append, expand_append, expand_append, expand_cons, hs,
    List.set_append_right _ _ h1, List.set_append_left _ _ hlt, List.append_assoc]

theorem ofRegs_expand {pre post : List Opcode} {o : Opcode} {index : ℕ}
    (h1 : (expand pre).length ≤ index) (h2 : index ≤ (expand pre).length + o.run) :
    ofRegs (expand (pre ++ o :: post)) index = o.value := by
  have hlt : index - (expand pre).length < o.regs.length := by rw [o.length_regs]; omega
  rw [ofRegs, expand_append, expand_cons, List.getD_eq_getElem?_getD,
    List.getElem?_append_right h1, List.getElem?_append_left hlt, Opcode.regs,
    List.getElem?_replicate, if_pos (by rwa [o.length_regs] at hlt), Option.getD_some]

theorem ofRegs_set {l : List ℕ} {index : ℕ} (h : index < l.length) (count : ℕ) :
    ofRegs (l.set index count) = Function.update (ofRegs l) index count := by
  funext r
  unfold ofRegs
  by_cases hr : r = index
  · subst hr; simp [h]
  · simp [hr, Ne.symm hr]

/-- The registers of a counter, in either encoding. -/
def HasRegs (hll : Hll) (regs : ℕ → ℕ) : Prop :=
  match hll.encoding with
  | .sparse => SparseRegs hll.registers.bytes regs
  | .dense => hll.registers.len = hllDenseSize ∧
      ∀ r, r < hllRegisters → hllDenseGetRegister hll.registers.bytes r = regs r

/-- The register a hash belongs to, and its pattern length. -/
def hllEntry (hash : BitVec 64) : ℕ × ℕ := ((hllPatLen hash).2, (hllPatLen hash).1)

/-- What the label `updated` does with the new opcodes. -/
theorem hllSparseUpdated_spec (hll : Hll) {bytes : List Byte} {pre ops : List Opcode}
    {prev : Option ℕ} (hb : bytes = encode (pre ++ ops))
    (hp : pre = [] ∧ prev = none ∨
      ∃ pre₁ pre₂, pre = pre₁ ++ pre₂ ∧ prev = some (encode pre₁).length) :
    ∃ ops', hllSparseUpdated hll bytes prev =
        ({ hll with registers := { hll.registers with bytes := encode ops' } }.invalidateCache, 1) ∧
      expand ops' = expand (pre ++ ops) := by
  obtain ⟨pre₁, pre₂, rfl, hprev⟩ : ∃ pre₁ pre₂, pre = pre₁ ++ pre₂ ∧
      prev.getD 0 = (encode pre₁).length := by
    rcases hp with ⟨rfl, rfl⟩ | ⟨pre₁, pre₂, rfl, rfl⟩
    exacts [⟨[], [], rfl, rfl⟩, ⟨pre₁, pre₂, rfl, rfl⟩]
  obtain ⟨ops', he, hx⟩ := hllSparseMerge_spec 5 (pre₂ ++ ops)
  refine ⟨pre₁ ++ ops', ?_, ?_⟩
  · rw [hllSparseUpdated, hprev, hb, List.append_assoc, encode_append, List.take_left,
      List.drop_left, he, encode_append]
  · rw [expand_append, hx, ← expand_append, List.append_assoc]

end Honas

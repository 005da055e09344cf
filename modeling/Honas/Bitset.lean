/-
  Bit sets (`include/bitset.h`).

  A bit set of up to 128 bits is kept in two words inside the structure, a
  larger one in an allocated block; either way it is an aligned byte slice.
-/
import Honas.ByteSlice

namespace Honas

open Bits

/-- `bitset_t`. -/
structure Bitset where
  numBits : ℕ
  repr : ByteSlice

/-- `bitset_using_byte_slice`: `num_bits > sizeof(size_t) << 4`. -/
def bitsetUsingByteSlice (numBits : ℕ) : Bool := numBits > sizeofSizeT <<< 4

/-- `bitset_create`. -/
def bitsetCreate (numBits : ℕ) : Bitset where
  numBits
  repr := ⟨0, List.replicate
    (if bitsetUsingByteSlice numBits then ((numBits + 7) % 2 ^ 64) >>> 3 else 2 * sizeofSizeT) 0⟩

/-- `bitset_clear`. -/
def bitsetClear (set : Bitset) : Bitset := { set with repr := byteSliceClear set.repr }

/-- `bitset_set_bit`. -/
def bitsetSetBit (set : Bitset) (idx : ℕ) : Option Bitset := do
  if idx < set.numBits then
    let repr ← byteSliceSetBit set.repr idx
    some { set with repr }
  else none

/-- `bitset_unset_bit`. -/
def bitsetUnsetBit (set : Bitset) (idx : ℕ) : Option Bitset := do
  if idx < set.numBits then
    let repr ← byteSliceUnsetBit set.repr idx
    some { set with repr }
  else none

/-- `bitset_bit_is_set`. -/
def bitsetBitIsSet (set : Bitset) (idx : ℕ) : Option Bool :=
  if idx < set.numBits then byteSliceBitIsSet set.repr idx else none

/-- `bitset_bitwise_or`. -/
def bitsetBitwiseOr (target other : Bitset) : Option Bitset := do
  if target.numBits = other.numBits then
    let repr ← byteSliceBitwiseOr target.repr other.repr
    some { target with repr }
  else none

/-- `bitset_bitwise_and`. -/
def bitsetBitwiseAnd (target other : Bitset) : Option Bitset := do
  if target.numBits = other.numBits then
    let repr ← byteSliceBitwiseAnd target.repr other.repr
    some { target with repr }
  else none

/-- `bitset_popcount`. -/
def bitsetPopcount (set : Bitset) : ℕ := byteSlicePopcount Popcount.builtin set.repr

/-- The block of a bit set has room for all its bits. -/
structure Bitset.Wf (set : Bitset) : Prop where
  addr : set.repr.addr % sizeofSizeT = 0
  room : set.numBits ≤ 8 * set.repr.len

theorem bitsetUsingByteSlice_iff (numBits : ℕ) : bitsetUsingByteSlice numBits ↔ 128 < numBits :=
  decide_eq_true_iff

theorem bitsetCreate_wf {numBits : ℕ} (hmax : numBits + 7 < 2 ^ 64) :
    (bitsetCreate numBits).Wf := by
  refine ⟨rfl, ?_⟩
  simp only [bitsetCreate, ByteSlice.len, List.length_replicate]
  have h := bitsetUsingByteSlice_iff numBits
  split_ifs with hu
  · rw [Nat.mod_eq_of_lt hmax, Nat.shiftRight_eq_div_pow]; omega
  · have : ¬ 128 < numBits := fun hn => hu (h.2 hn)
    unfold sizeofSizeT; omega

/-- Setting a bit. -/
theorem bitsetSetBit_spec {set : Bitset} (h : set.Wf) {idx : ℕ} (hi : idx < set.numBits) :
    ∃ set', bitsetSetBit set idx = some set' ∧ set'.Wf ∧ set'.numBits = set.numBits ∧
      set'.repr.len = set.repr.len ∧
      ∀ i, bitAt set'.repr.bytes i = (bitAt set.repr.bytes i || decide (i = idx)) := by
  have hroom := h.room
  have hlen : idx < 8 * set.repr.bytes.length := by
    have : set.repr.len = set.repr.bytes.length := rfl
    omega
  refine ⟨{ set with repr := { set.repr with bytes := setBit set.repr.bytes idx } }, ?_,
    ⟨h.addr, ?_⟩, rfl, by simp [ByteSlice.len], fun i => ?_⟩
  · rw [bitsetSetBit, if_pos hi, byteSliceSetBit, if_pos (by have := h.room; omega)]
    rfl
  · simpa [ByteSlice.len] using hroom
  · simp only
    rw [bitAt_setBit]
    simp [hlen]

/-! ## Sets of one size -/

/-- A set with the layout that it was created with. -/
structure Bitset.Fits (n : ℕ) (set : Bitset) : Prop extends set.Wf where
  numBits : set.numBits = n
  len : set.repr.len = (bitsetCreate n).repr.len

theorem bitsetCreate_fits {n : ℕ} (hmax : n + 7 < 2 ^ 64) : (bitsetCreate n).Fits n :=
  ⟨bitsetCreate_wf hmax, rfl, rfl⟩

theorem bitsetClear_fits {n : ℕ} {set : Bitset} (h : set.Fits n) :
    (bitsetClear set).Fits n ∧ ∀ i, bitAt (bitsetClear set).repr.bytes i = false := by
  have hlen : (bitsetClear set).repr.len = set.repr.len := List.length_replicate
  refine ⟨⟨⟨h.addr, ?_⟩, h.numBits, hlen.trans h.len⟩, fun i => ?_⟩
  · rw [hlen]
    exact h.room
  · rw [bitsetClear, byteSliceClear]
    exact bitAt_replicate _ i

theorem bitsetSetBit_fits {n i : ℕ} {set set' : Bitset} (h : set.Fits n) (hi : i < n)
    (hs : bitsetSetBit set i = some set') :
    set'.Fits n ∧ ∀ j, bitAt set'.repr.bytes j = (bitAt set.repr.bytes j || decide (j = i)) := by
  obtain ⟨set₁, h₁, hw, hn, hl, hb⟩ := bitsetSetBit_spec h.toWf (by rw [h.numBits]; exact hi)
  rw [hs, Option.some_inj] at h₁
  subst h₁
  exact ⟨⟨hw, hn.trans h.numBits, hl.trans h.len⟩, hb⟩

/-- The intersection of two sets. -/
theorem bitsetBitwiseAnd_fits {n : ℕ} {set other both : Bitset} (h : set.Fits n)
    (ho : other.Fits n) (hand : bitsetBitwiseAnd set other = some both) :
    both.Fits n ∧ ∀ i, bitAt both.repr.bytes i =
      (bitAt set.repr.bytes i && bitAt other.repr.bytes i) := by
  have hlen : set.repr.bytes.length = other.repr.bytes.length := h.len.trans ho.len.symm
  have hbytes : List.zipWith (· &&& ·) set.repr.bytes other.repr.bytes ++
      set.repr.bytes.drop (min set.repr.len other.repr.len) =
        List.zipWith (· &&& ·) set.repr.bytes other.repr.bytes := by
    rw [ByteSlice.len, ByteSlice.len, ← hlen, min_self, List.drop_length, List.append_nil]
  rw [bitsetBitwiseAnd, if_pos (h.numBits.trans ho.numBits.symm), byteSliceBitwiseAnd_eq
    (h.addr.trans ho.addr.symm), hbytes] at hand
  simp only [Option.bind_eq_bind, Option.bind_some, Option.some_inj] at hand
  subst hand
  have hboth : (List.zipWith (· &&& ·) set.repr.bytes other.repr.bytes).length =
      set.repr.bytes.length := by
    rw [List.length_zipWith, ← hlen, min_self]
  refine ⟨⟨⟨h.addr, ?_⟩, h.numBits, hboth.trans h.len⟩, bitAt_zipWith_and hlen⟩
  rw [ByteSlice.len, hboth]
  exact h.room

/-- A set with the bits of some filters counts them. -/
theorem bitsetPopcount_eq {n : ℕ} {set : Bitset} (h : set.Fits n) {filters : List ℕ}
    (hnodup : filters.Nodup) (hlt : ∀ i ∈ filters, i < n)
    (hbits : ∀ i, bitAt set.repr.bytes i = true ↔ i ∈ filters) :
    bitsetPopcount set = filters.length := by
  rw [bitsetPopcount, byteSlicePopcount_eq, ← List.toFinset_card_of_nodup hnodup]
  refine countBits_of_bitAt (fun i hi => ?_) fun i => ?_
  · have hroom := h.room
    rw [ByteSlice.len] at hroom
    have := hlt i (List.mem_toFinset.1 hi)
    have := h.numBits
    omega
  · rw [Bool.eq_iff_iff, decide_eq_true_iff, List.mem_toFinset]
    exact hbits i

end Honas

/-
  Bloom filters (`include/bloom.h`, `src/bloom.c`).

  `bloomDetermineOffsets` takes the offsets out of the hash one by one: the
  hash is multiplied in place by the number of free bits, the overflow is the
  next offset among these, and the low bits that the multiplication would lose
  are added back to the hash.

  `bloomDetermineOffsetsWith_spec`: it succeeds, and the offsets are distinct
  bits of the filter.  `bloomSet_spec` and `bloomIsSet_eq` describe the two
  users.
-/
import Honas.ByteSlice

namespace Honas

open Bits

/-- `ffs` and `ffsl`: the position of the lowest set bit, from 1; 0 if there is
    none. -/
def ffs (n : ℕ) : ℕ :=
  match (List.range 64).find? n.testBit with
  | some i => i + 1
  | none => 0

/-- Add back the entropy that a multiplication by `bs` loses, for words of `b`
    bytes.  The mask is computed in `int`. -/
def readdEntropy (b bs overflow : ℕ) (hash : List Byte) : List Byte :=
  let lostBits := ffs bs
  if lostBits > 1 then
    let mask := (((1#32 <<< (lostBits - 1)) - 1#32).signExtend (8 * b)).toNat
    splice hash 0 (toLE b (ofLE (hash.take b) + (overflow &&& mask)))
  else hash

/-- Insert a new value into the filled part of `bit_offsets`, counting it up by
    one for each offset it passes. -/
def insertOffset (new : ℕ) : List ℕ → List ℕ
  | [] => [new]
  | offset :: offsets =>
    if new ≥ offset then offset :: insertOffset ((new + 1) % 2 ^ 32) offsets
    else new :: offset :: offsets

/-- The loop of `bloom_determine_offsets`, for words of `b` bytes. -/
def bloomOffsetsLoop (b : ℕ) (mul : List Byte → ℕ → Option (List Byte × ℕ)) :
    ℕ → List Byte → ℕ → List ℕ → Option (List ℕ)
  | 0, _, _, offsets => some offsets
  | j + 1, hash, bs, offsets => do
    let (hash, overflow) ← mul hash bs
    bloomOffsetsLoop b mul j (readdEntropy b bs overflow hash) (bs - 1)
      (insertOffset (overflow % 2 ^ 32) offsets)

/-- `bloom_determine_offsets`, built with or without `HAS_BYTE_SLICE_MUL64`. -/
def bloomDetermineOffsetsWith (hasByteSliceMul64 : Bool) (bitOffsetsLen filtersize : ℕ)
    (inputHash : List Byte) : Option (List ℕ) := do
  if ¬ (filtersize ≥ 1 ∧ filtersize < 2 ^ 29) then none
  else if ¬ bitOffsetsLen ≥ 1 then none
  else if ¬ inputHash.length > 0 then none
  else
    let bs := filtersize <<< 3
    let numBits := if bitOffsetsLen > bs then bs else bitOffsetsLen
    let offsets ←
      if hasByteSliceMul64 ∧ inputHash.length % 8 = 0 then
        bloomOffsetsLoop 8 byteSliceMul64 numBits inputHash bs []
      else bloomOffsetsLoop 4 byteSliceMul32 numBits inputHash bs []
    some (offsets ++ List.replicate (bitOffsetsLen - numBits) 0)

/-- `bloom_determine_offsets`. -/
def bloomDetermineOffsets (bitOffsetsLen filtersize : ℕ) (inputHash : List Byte) :
    Option (List ℕ) :=
  bloomDetermineOffsetsWith true bitOffsetsLen filtersize inputHash

/-- `bloom_set`. -/
def bloomSet (filter : ByteSlice) (hash : List Byte) (numBits : ℕ) : Option ByteSlice := do
  let bitOffsets ← bloomDetermineOffsets numBits filter.len hash
  byteSliceSetBits filter bitOffsets

/-- `bloom_is_set`. -/
def bloomIsSet (filter : ByteSlice) (hash : List Byte) (numBits : ℕ) : Option Bool := do
  let bitOffsets ← bloomDetermineOffsets numBits filter.len hash
  byteSliceAllBitsSet filter bitOffsets

/-- `bloom_nr_bits_set`. -/
def bloomNrBitsSet (filter : ByteSlice) : ℕ := byteSlicePopcount Popcount.builtin filter

/-! ## The offsets -/

@[simp] theorem length_insertOffset : ∀ (new : ℕ) (offsets : List ℕ),
    (insertOffset new offsets).length = offsets.length + 1
  | _, [] => rfl
  | new, offset :: offsets => by
    rw [insertOffset]
    split_ifs
    · simp [length_insertOffset]
    · rfl

/-- An inserted value grows by at most the number of offsets it passes. -/
theorem insertOffset_lt {bound : ℕ} : ∀ {new : ℕ} {offsets : List ℕ},
    new + offsets.length < bound → (∀ o ∈ offsets, o < bound) →
    ∀ o ∈ insertOffset new offsets, o < bound
  | new, [], h, _ => by simpa [insertOffset] using h
  | new, offset :: offsets, h, ho => by
    rw [List.length_cons] at h
    rw [insertOffset]
    split_ifs
    · have hmod : (new + 1) % 2 ^ 32 ≤ new + 1 := Nat.mod_le _ _
      rw [List.forall_mem_cons]
      exact ⟨ho offset (by simp), insertOffset_lt (by omega) fun o h' => ho o (by simp [h'])⟩
    · rw [List.forall_mem_cons]
      exact ⟨by omega, ho⟩

theorem mem_insertOffset : ∀ {new : ℕ} {offsets : List ℕ} {o : ℕ},
    new + offsets.length < 2 ^ 32 → o ∈ insertOffset new offsets → new ≤ o ∨ o ∈ offsets
  | new, [], o, _, h => by
    rw [insertOffset, List.mem_singleton] at h
    exact Or.inl h.ge
  | new, offset :: offsets, o, hlt, h => by
    rw [List.length_cons] at hlt
    rw [insertOffset] at h
    split_ifs at h with hge
    · have hmod : (new + 1) % 2 ^ 32 = new + 1 := Nat.mod_eq_of_lt (by omega)
      rcases List.mem_cons.1 h with rfl | h
      · exact Or.inr List.mem_cons_self
      · rw [hmod] at h
        rcases mem_insertOffset (by omega) h with h | h
        · exact Or.inl (by omega)
        · exact Or.inr (List.mem_cons_of_mem _ h)
    · rcases List.mem_cons.1 h with rfl | h
      · exact Or.inl le_rfl
      · exact Or.inr h

/-- A value is inserted behind the offsets it passes, and before the larger
    ones. -/
theorem pairwise_insertOffset : ∀ {new : ℕ} {offsets : List ℕ},
    new + offsets.length < 2 ^ 32 → offsets.Pairwise (· < ·) →
    (insertOffset new offsets).Pairwise (· < ·)
  | new, [], _, _ => List.pairwise_singleton _ new
  | new, offset :: offsets, hlt, hs => by
    rw [List.length_cons] at hlt
    obtain ⟨hhead, htail⟩ := List.pairwise_cons.1 hs
    rw [insertOffset]
    split_ifs with hge
    · have hmod : (new + 1) % 2 ^ 32 = new + 1 := Nat.mod_eq_of_lt (by omega)
      rw [hmod]
      refine List.pairwise_cons.2 ⟨fun o ho => ?_, pairwise_insertOffset (by omega) htail⟩
      rcases mem_insertOffset (by omega) ho with h | h
      · omega
      · exact hhead o h
    · refine List.pairwise_cons.2 ⟨fun o ho => ?_, hs⟩
      rcases List.mem_cons.1 ho with rfl | h
      · omega
      · have := hhead o h
        omega

theorem length_readdEntropy {b bs overflow : ℕ} {hash : List Byte} (h : b ≤ hash.length) :
    (readdEntropy b bs overflow hash).length = hash.length := by
  unfold readdEntropy
  dsimp only
  split_ifs
  · exact length_splice (by simpa using h)
  · rfl

/-- Each round adds one offset; after it, one bit less is free. -/
theorem bloomOffsetsLoop_spec {b : ℕ} {mul : List Byte → ℕ → Option (List Byte × ℕ)} {len : ℕ}
    (hb : b ≤ len)
    (hmul : ∀ (hash : List Byte) (bs : ℕ), hash.length = len → 0 < bs → bs < 2 ^ 32 →
      ∃ hash' o, mul hash bs = some (hash', o) ∧ hash'.length = len ∧ o < bs) :
    ∀ (j : ℕ) (hash : List Byte) (bs : ℕ) (offsets : List ℕ), hash.length = len → j ≤ bs →
      bs + offsets.length < 2 ^ 32 → (∀ o ∈ offsets, o < bs + offsets.length) →
      offsets.Pairwise (· < ·) →
      ∃ offsets', bloomOffsetsLoop b mul j hash bs offsets = some offsets' ∧
        offsets'.length = j + offsets.length ∧ (∀ o ∈ offsets', o < bs + offsets.length) ∧
        offsets'.Pairwise (· < ·)
  | 0, _, _, offsets, _, _, _, ho, hs => ⟨offsets, rfl, by simp, ho, hs⟩
  | j + 1, hash, bs, offsets, hl, hj, hlt, ho, hs => by
    obtain ⟨hash', o, hm, hl', hobs⟩ := hmul hash bs hl (by omega) (by omega)
    have hmod : o % 2 ^ 32 = o := Nat.mod_eq_of_lt (by omega)
    have hins : ∀ x ∈ insertOffset o offsets, x < bs + offsets.length :=
      insertOffset_lt (by omega) ho
    obtain ⟨offsets', he, hlen, hb', hs'⟩ := bloomOffsetsLoop_spec hb hmul j
      (readdEntropy b bs o hash') (bs - 1) (insertOffset o offsets)
      (by rw [length_readdEntropy (by omega), hl']) (by omega)
      (by rw [length_insertOffset]; omega)
      (by rw [length_insertOffset, show bs - 1 + (offsets.length + 1) = bs + offsets.length by omega]
          exact hins)
      (pairwise_insertOffset (by omega) hs)
    rw [length_insertOffset] at hlen hb'
    refine ⟨offsets', ?_, by omega, fun x hx => ?_, hs'⟩
    · rw [bloomOffsetsLoop, hm]
      simp only [Option.bind_eq_bind, Option.bind_some, hmod]
      exact he
    · have := hb' x hx
      omega

/-- **The offsets**: distinct bits of the filter in increasing order, as many as
    asked for or as there are, and 0 for the rest. -/
theorem bloomDetermineOffsetsWith_spec (hasByteSliceMul64 : Bool) {num filtersize : ℕ}
    {hash : List Byte} (h1 : 1 ≤ filtersize) (h2 : filtersize < 2 ^ 29) (hn : 1 ≤ num)
    (h0 : 0 < hash.length) (h4 : hash.length % 4 = 0) :
    ∃ offsets, bloomDetermineOffsetsWith hasByteSliceMul64 num filtersize hash =
        some (offsets ++ List.replicate (num - min num (8 * filtersize)) 0) ∧
      offsets.length = min num (8 * filtersize) ∧ (∀ o ∈ offsets, o < 8 * filtersize) ∧
      offsets.Pairwise (· < ·) := by
  have hbs : filtersize <<< 3 = 8 * filtersize := by rw [Nat.shiftLeft_eq]; omega
  have hnb : (if num > 8 * filtersize then 8 * filtersize else num) = min num (8 * filtersize) := by
    split_ifs <;> omega
  rw [bloomDetermineOffsetsWith, if_neg (by omega), if_neg (by omega), if_neg (by omega), hbs]
  simp only [hnb]
  -- either loop gives offsets in the filter
  have hloop : ∀ (b : ℕ) (mul : List Byte → ℕ → Option (List Byte × ℕ)), b ≤ hash.length →
      (∀ (h : List Byte) (bs : ℕ), h.length = hash.length → 0 < bs → bs < 2 ^ 32 →
        ∃ h' o, mul h bs = some (h', o) ∧ h'.length = hash.length ∧ o < bs) →
      ∃ offsets, bloomOffsetsLoop b mul (min num (8 * filtersize)) hash (8 * filtersize) [] =
          some offsets ∧ offsets.length = min num (8 * filtersize) ∧
        (∀ o ∈ offsets, o < 8 * filtersize) ∧ offsets.Pairwise (· < ·) := by
    intro b mul hb hmul
    obtain ⟨offsets, he, hl, ho, hs⟩ := bloomOffsetsLoop_spec hb hmul (min num (8 * filtersize)) hash
      (8 * filtersize) [] rfl (min_le_right _ _) (by simp; omega) (by simp) List.Pairwise.nil
    exact ⟨offsets, he, by simpa using hl, by simpa using ho, hs⟩
  by_cases h8 : hasByteSliceMul64 = true ∧ hash.length % 8 = 0
  · obtain ⟨offsets, he, hspec⟩ := hloop 8 byteSliceMul64 (by omega) fun h bs hlen hpos hlt => by
      obtain ⟨h', o, hm, hl', ho'⟩ := byteSliceMul64_spec h (by omega) hpos (by omega)
      exact ⟨h', o, hm, by omega, ho'⟩
    rw [if_pos h8, he]
    exact ⟨offsets, rfl, hspec⟩
  · obtain ⟨offsets, he, hspec⟩ := hloop 4 byteSliceMul32 (by omega) fun h bs hlen hpos hlt => by
      obtain ⟨h', o, hm, hl', ho'⟩ := byteSliceMul32_spec h (by omega) hpos (by omega)
      exact ⟨h', o, hm, by omega, ho'⟩
    rw [if_neg h8, he]
    exact ⟨offsets, rfl, hspec⟩

/-- There are as many offsets as asked for, all inside the filter. -/
theorem bloomDetermineOffsets_spec {num filtersize : ℕ} {hash : List Byte} (h1 : 1 ≤ filtersize)
    (h2 : filtersize < 2 ^ 29) (hn : 1 ≤ num) (h0 : 0 < hash.length) (h4 : hash.length % 4 = 0) :
    ∃ offsets, bloomDetermineOffsets num filtersize hash = some offsets ∧ offsets.length = num ∧
      ∀ o ∈ offsets, o < 8 * filtersize := by
  obtain ⟨offsets, he, hl, ho, -⟩ := bloomDetermineOffsetsWith_spec true h1 h2 hn h0 h4
  refine ⟨_, he, ?_, fun o h => ?_⟩
  · rw [List.length_append, List.length_replicate]; omega
  · rcases List.mem_append.1 h with h | h
    · exact ho o h
    · rw [List.eq_of_mem_replicate h]; omega

/-! ## Setting and testing -/

/-- The filter and the number of hashes satisfy the assertions. -/
structure BloomOk (filtersize num : ℕ) : Prop where
  pos : 1 ≤ filtersize
  lt : filtersize < 2 ^ 29
  num_pos : 1 ≤ num

/-- The offsets of a hash, as a function. -/
def bloomOffsets (num filtersize : ℕ) (hash : List Byte) : List ℕ :=
  (bloomDetermineOffsets num filtersize hash).getD []

theorem bloomOffsets_spec {num filtersize : ℕ} {hash : List Byte} (h : BloomOk filtersize num)
    (h0 : 0 < hash.length) (h4 : hash.length % 4 = 0) :
    bloomDetermineOffsets num filtersize hash = some (bloomOffsets num filtersize hash) ∧
      ∀ o ∈ bloomOffsets num filtersize hash, o < 8 * filtersize := by
  obtain ⟨offsets, he, -, ho⟩ := bloomDetermineOffsets_spec h.pos h.lt h.num_pos h0 h4
  rw [bloomOffsets, he]
  exact ⟨rfl, ho⟩

/-- **Setting** adds the offsets of the hash to the filter. -/
theorem bloomSet_spec (filter : ByteSlice) (hash : List Byte) (num : ℕ)
    (h : BloomOk filter.len num) (h0 : 0 < hash.length) (h4 : hash.length % 4 = 0) :
    ∃ filter', bloomSet filter hash num = some filter' ∧ filter'.addr = filter.addr ∧
      filter'.len = filter.len ∧ ∀ i, bitAt filter'.bytes i =
        (bitAt filter.bytes i || decide (i ∈ bloomOffsets num filter.len hash)) := by
  obtain ⟨he, ho⟩ := bloomOffsets_spec h h0 h4
  obtain ⟨filter', hs, hres⟩ := byteSliceSetBits_spec ho
  refine ⟨filter', ?_, hres⟩
  rw [bloomSet, he]
  exact hs

/-- **Testing**: all offsets of the hash are in the filter. -/
theorem bloomIsSet_eq (filter : ByteSlice) (hash : List Byte) (num : ℕ)
    (h : BloomOk filter.len num) (h0 : 0 < hash.length) (h4 : hash.length % 4 = 0) :
    bloomIsSet filter hash num =
      some ((bloomOffsets num filter.len hash).all (bitAt filter.bytes)) := by
  obtain ⟨he, ho⟩ := bloomOffsets_spec h h0 h4
  rw [bloomIsSet, he]
  exact byteSliceAllBitsSet_eq ho

/-- A filter can be tested for a hash of whole words. -/
theorem bloomIsSet_isSome_iff {filter : ByteSlice} {hash : List Byte} {num : ℕ}
    (h : BloomOk filter.len num) :
    (∃ hit, bloomIsSet filter hash num = some hit) ↔ 0 < hash.length ∧ hash.length % 4 = 0 := by
  refine ⟨fun ⟨hit, hset⟩ => ?_, fun ⟨h0, h4⟩ => ⟨_, bloomIsSet_eq filter hash num h h0 h4⟩⟩
  rw [bloomIsSet, bloomDetermineOffsets, bloomDetermineOffsetsWith,
    if_neg (not_not.2 ⟨h.pos, h.lt⟩), if_neg (not_not.2 h.num_pos)] at hset
  by_cases hpos : hash.length > 0
  · refine ⟨hpos, ?_⟩
    by_contra h4
    -- the first multiplication fails
    obtain ⟨n, hn⟩ : ∃ n, (if num > filter.len <<< 3 then filter.len <<< 3 else num) = n + 1 := by
      have hlen := h.pos
      have hnum := h.num_pos
      rw [Nat.shiftLeft_eq]
      split_ifs
      · exact ⟨filter.len * 2 ^ 3 - 1, by omega⟩
      · exact ⟨num - 1, by omega⟩
    have h8 : ¬ hash.length % 8 = 0 := fun h8 => h4 (by omega)
    simp [hn, h8, bloomOffsetsLoop, byteSliceMul32, h4] at hset
  · rw [if_pos hpos] at hset
    cases hset

end Honas

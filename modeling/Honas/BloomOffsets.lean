/-
  The rounds of `bloom_determine_offsets`.

  The loop is a fold of one round over its multipliers
  (`bloomOffsetsLoop_eq_foldlM`), and as a number the working hash goes through
  one multiplication with the overflow bits added back (`bloomRound_eq`),
  whatever the width of the words.

  `bloomOffsets_kSubset`: the offsets are a set of bits of the filter.
  `bloomRounds_agree`: the builds with and without `HAS_BYTE_SLICE_MUL64` agree
  after every round.
  `entropyMasks_iff`: the mask of the lost entropy is computed within `int`
  unless a multiplier is `2 ^ 31`.
-/
import Honas.Bloom
import Honas.Lib.MulRotate

namespace Honas

open Bits MulRotate

/-! ## The offsets as a set of bits -/

/-- `bloom_set`, built with or without `HAS_BYTE_SLICE_MUL64`. -/
def bloomSetWith (hasByteSliceMul64 : Bool) (filter : ByteSlice) (hash : List Byte) (numBits : ℕ) :
    Option ByteSlice := do
  let bitOffsets ← bloomDetermineOffsetsWith hasByteSliceMul64 numBits filter.len hash
  byteSliceSetBits filter bitOffsets

/-- `bloom_is_set`, built with or without `HAS_BYTE_SLICE_MUL64`. -/
def bloomIsSetWith (hasByteSliceMul64 : Bool) (filter : ByteSlice) (hash : List Byte)
    (numBits : ℕ) : Option Bool := do
  let bitOffsets ← bloomDetermineOffsetsWith hasByteSliceMul64 numBits filter.len hash
  byteSliceAllBitsSet filter bitOffsets

/-- Offsets that fill up the filter contain every bit of it. -/
theorem mem_of_length_eq {offsets : List ℕ} {n : ℕ} (hl : offsets.length = n)
    (ho : ∀ o ∈ offsets, o < n) (hs : offsets.Pairwise (· < ·)) {i : ℕ} (hi : i < n) :
    i ∈ offsets := by
  have hnd : offsets.Nodup := hs.imp fun h => h.ne
  have hsub : offsets.toFinset ⊆ Finset.range n := fun o h =>
    Finset.mem_range.2 (ho o (List.mem_toFinset.1 h))
  have heq : offsets.toFinset = Finset.range n :=
    Finset.eq_of_subset_of_card_le hsub (by
      rw [Finset.card_range, List.toFinset_card_of_nodup hnd, hl])
  exact List.mem_toFinset.1 (heq ▸ Finset.mem_range.2 hi)

/-- Any offsets after the first are bits that are set anyway. -/
theorem mem_append_replicate_iff {offsets : List ℕ} {num n : ℕ} (hn : 0 < n)
    (hl : offsets.length = min num n) (ho : ∀ o ∈ offsets, o < n)
    (hs : offsets.Pairwise (· < ·)) {i : ℕ} :
    i ∈ offsets ++ List.replicate (num - min num n) 0 ↔ i ∈ offsets := by
  rw [List.mem_append, or_iff_left_iff_imp]
  intro h
  obtain ⟨hpos, rfl⟩ := List.mem_replicate.1 h
  exact mem_of_length_eq (by omega) ho hs hn

/-- **The offsets form a `k`-subset** of the bits of the filter, so that one
    hash sets `min k N` bits of an empty filter, and the filter is never indexed
    outside of its bytes. -/
theorem bloomOffsets_kSubset (hasByteSliceMul64 : Bool) {filtersize k : ℕ} {hash : List Byte}
    (h1 : 1 ≤ filtersize) (h2 : filtersize < 2 ^ 29) (hk : 1 ≤ k) (h0 : 0 < hash.length)
    (h4 : hash.length % 4 = 0) :
    (∃ offsets, bloomDetermineOffsetsWith hasByteSliceMul64 k filtersize hash = some offsets ∧
      offsets.length = k ∧
      (offsets.take (min k (8 * filtersize))).Pairwise (· < ·) ∧
      (∀ o ∈ offsets.take (min k (8 * filtersize)), o < 8 * filtersize) ∧
      (∀ o ∈ offsets.drop (min k (8 * filtersize)), o = 0)) ∧
    (∀ addr, ∃ filter,
      bloomSetWith hasByteSliceMul64 ⟨addr, List.replicate filtersize 0⟩ hash k = some filter ∧
      bloomNrBitsSet filter = min k (8 * filtersize)) ∧
    ∀ filter : ByteSlice, filter.len = filtersize →
      (bloomSetWith hasByteSliceMul64 filter hash k).isSome ∧
      (bloomIsSetWith hasByteSliceMul64 filter hash k).isSome := by
  obtain ⟨offsets, he, hl, ho, hs⟩ :=
    bloomDetermineOffsetsWith_spec hasByteSliceMul64 h1 h2 hk h0 h4
  have hall : ∀ o ∈ offsets ++ List.replicate (k - min k (8 * filtersize)) 0,
      o < 8 * filtersize := fun o h =>
    ho o ((mem_append_replicate_iff (by omega) hl ho hs).1 h)
  refine ⟨⟨_, he, ?_, ?_, ?_, ?_⟩, fun addr => ?_, fun filter hlen => ?_⟩
  · rw [List.length_append, List.length_replicate]; omega
  · rw [List.take_left' hl]; exact hs
  · rw [List.take_left' hl]; exact ho
  · rw [List.drop_left' hl]
    exact fun o h => List.eq_of_mem_replicate h
  · have hzero : (⟨addr, List.replicate filtersize 0⟩ : ByteSlice).len = filtersize :=
      List.length_replicate
    obtain ⟨filter, hset, -, hlen, hbits⟩ := byteSliceSetBits_spec
      (s := ⟨addr, List.replicate filtersize 0⟩) (fun o h => by rw [hzero]; exact hall o h)
    refine ⟨filter, ?_, ?_⟩
    · rw [bloomSetWith, hzero, he]
      exact hset
    · have hflen : filter.bytes.length = filtersize := hlen.trans hzero
      have hcard : offsets.toFinset.card = min k (8 * filtersize) := by
        rw [List.toFinset_card_of_nodup (hs.imp fun h => h.ne), hl]
      rw [bloomNrBitsSet, byteSlicePopcount_eq, ← hcard]
      refine countBits_of_bitAt (fun i hi => ?_) fun i => ?_
      · rw [hflen]
        exact ho i (List.mem_toFinset.1 hi)
      · rw [hbits, bitAt_replicate, Bool.false_or]
        exact decide_eq_decide.2
          ((mem_append_replicate_iff (by omega) hl ho hs).trans List.mem_toFinset.symm)
  · have hin : ∀ o ∈ offsets ++ List.replicate (k - min k (8 * filtersize)) 0,
        o < 8 * filter.len := by rw [hlen]; exact hall
    constructor
    · obtain ⟨filter', hset, -⟩ := byteSliceSetBits_spec hin
      rw [bloomSetWith, hlen, he]
      exact Option.isSome_iff_exists.2 ⟨filter', hset⟩
    · rw [bloomIsSetWith, hlen, he]
      exact Option.isSome_iff_exists.2 ⟨_, byteSliceAllBitsSet_eq hin⟩

/-- Three offsets in a filter of two bytes. -/
theorem bloomOffsets_kSubset_two_bytes :
    ∃ offsets, bloomDetermineOffsetsWith true 3 2 (List.replicate 32 7#8) = some offsets ∧
      offsets.length = 3 ∧ (offsets.take (min 3 (8 * 2))).Pairwise (· < ·) ∧
      (∀ o ∈ offsets.take (min 3 (8 * 2)), o < 8 * 2) ∧
      ∀ o ∈ offsets.drop (min 3 (8 * 2)), o = 0 :=
  (bloomOffsets_kSubset true (by decide) (by decide) (by decide) (by decide) (by decide)).1

/-! ## Rounds -/

/-- One round of the loop: the working hash, multiplied by `bs` and with its
    entropy added back, and the offsets with the overflow inserted. -/
def bloomRound (b : ℕ) (mul : List Byte → ℕ → Option (List Byte × ℕ))
    (state : List Byte × List ℕ) (bs : ℕ) : Option (List Byte × List ℕ) := do
  let (hash, overflow) ← mul state.1 bs
  some (readdEntropy b bs overflow hash, insertOffset (overflow % 2 ^ 32) state.2)

/-- The values of `bs` in the rounds: one bit less is free in each. -/
def bloomMultipliers (bitOffsetsLen filtersize : ℕ) : List ℕ :=
  (List.range (min bitOffsetsLen (8 * filtersize))).map (8 * filtersize - ·)

/-- The working hash and the offsets after the first `j` rounds. -/
def bloomStateAfter (hasByteSliceMul64 : Bool) (bitOffsetsLen filtersize : ℕ)
    (inputHash : List Byte) (j : ℕ) : Option (List Byte × List ℕ) :=
  ((bloomMultipliers bitOffsetsLen filtersize).take j).foldlM
    (if hasByteSliceMul64 ∧ inputHash.length % 8 = 0 then bloomRound 8 byteSliceMul64
      else bloomRound 4 byteSliceMul32) (inputHash, [])

/-- The loop is a fold of one round. -/
theorem bloomOffsetsLoop_eq_foldlM (b : ℕ) (mul : List Byte → ℕ → Option (List Byte × ℕ)) :
    ∀ (j bs : ℕ) (state : List Byte × List ℕ),
      bloomOffsetsLoop b mul j state.1 bs state.2 =
        (((List.range j).map (bs - ·)).foldlM (bloomRound b mul) state).map Prod.snd
  | 0, _, _ => rfl
  | j + 1, bs, state => by
    have htail : (List.range (j + 1)).map (bs - ·) = bs :: (List.range j).map (bs - 1 - ·) := by
      rw [List.range_succ_eq_map, List.map_cons, List.map_map, Nat.sub_zero]
      congr 1
      exact List.map_congr_left fun i _ => by rw [Function.comp_apply]; omega
    rw [htail, List.foldlM_cons, bloomOffsetsLoop, bloomRound]
    cases mul state.1 bs with
    | none => rfl
    | some r => exact bloomOffsetsLoop_eq_foldlM b mul j (bs - 1) (_, _)

/-- **`bloom_determine_offsets` is its rounds**: the offsets are those of the
    state after all of them. -/
theorem bloomDetermineOffsetsWith_eq (hasByteSliceMul64 : Bool) {num filtersize : ℕ}
    {hash : List Byte} (h1 : 1 ≤ filtersize) (h2 : filtersize < 2 ^ 29) (hn : 1 ≤ num)
    (h0 : 0 < hash.length) :
    bloomDetermineOffsetsWith hasByteSliceMul64 num filtersize hash =
      (bloomStateAfter hasByteSliceMul64 num filtersize hash (min num (8 * filtersize))).map
        fun state => state.2 ++ List.replicate (num - min num (8 * filtersize)) 0 := by
  have hbs : filtersize <<< 3 = 8 * filtersize := by rw [Nat.shiftLeft_eq]; omega
  have hnb : (if num > 8 * filtersize then 8 * filtersize else num) = min num (8 * filtersize) := by
    split_ifs <;> omega
  have htake : (bloomMultipliers num filtersize).take (min num (8 * filtersize)) =
      (List.range (min num (8 * filtersize))).map (8 * filtersize - ·) := by
    rw [bloomMultipliers, List.take_of_length_le]
    simp
  rw [bloomDetermineOffsetsWith, if_neg (by omega), if_neg (by omega), if_neg (by omega), hbs,
    bloomStateAfter, htake]
  simp only [hnb]
  have hloop := fun b mul => bloomOffsetsLoop_eq_foldlM b mul (min num (8 * filtersize))
    (8 * filtersize) (hash, [])
  dsimp only at hloop
  rw [hloop, hloop]
  split_ifs <;> rw [Option.map_eq_bind, Option.map_eq_bind] <;> simp [Option.bind_assoc]

/-! ## The working hash as a number -/

/-- The word sizes of the two loops, with their multiplications. -/
inductive MulWidth : ℕ → (List Byte → ℕ → Option (List Byte × ℕ)) → Prop
  | mul32 : MulWidth 4 byteSliceMul32
  | mul64 : MulWidth 8 byteSliceMul64

theorem MulWidth.eq {b : ℕ} {mul : List Byte → ℕ → Option (List Byte × ℕ)} (hw : MulWidth b mul)
    {hash : List Byte} (hl : hash.length % b = 0) (m : ℕ) :
    mul hash m = some (byteSliceMulLoop b m (hash.length / b) hash 0) := by
  cases hw with
  | mul32 => rw [byteSliceMul32, if_pos hl]
  | mul64 => rw [byteSliceMul64, if_pos hl]

theorem MulWidth.cases {b : ℕ} {mul : List Byte → ℕ → Option (List Byte × ℕ)}
    (hw : MulWidth b mul) : b = 4 ∨ b = 8 := by
  cases hw with
  | mul32 => exact Or.inl rfl
  | mul64 => exact Or.inr rfl

/-- `ffs` is one more than the number of trailing zero bits. -/
theorem ffs_eq {n : ℕ} (h0 : 0 < n) (hlt : n < 2 ^ 64) : ffs n = padicValNat 2 n + 1 := by
  obtain ⟨u, hu, he⟩ := exists_odd_part h0
  have hv : padicValNat 2 n < 64 :=
    (Nat.pow_lt_pow_iff_right (by norm_num)).1 ((pow_padicValNat_le h0).trans_lt hlt)
  have hodd : u.testBit 0 = true := by
    rw [Nat.testBit_zero]
    exact decide_eq_true (Nat.odd_iff.1 hu)
  have hfind : (List.range 64).find? n.testBit = some (padicValNat 2 n) := by
    generalize padicValNat 2 n = v at he hv
    rw [List.find?_range_eq_some]
    refine ⟨?_, List.mem_range.2 hv, fun j hj => ?_⟩
    · rw [he, Nat.testBit_two_pow_mul, Nat.sub_self, hodd]
      simp
    · rw [he, Nat.testBit_two_pow_mul]
      simp [hj]
  rw [ffs, hfind]

/-- Below `2 ^ 32` there are at most 31 trailing zero bits. -/
theorem padicValNat_lt_of_lt {n : ℕ} (h0 : 0 < n) (hlt : n < 2 ^ 32) : padicValNat 2 n < 32 :=
  (Nat.pow_lt_pow_iff_right (by norm_num)).1 ((pow_padicValNat_le h0).trans_lt hlt)

/-- The mask selects the low bits, also in `int` with wraparound. -/
theorem mask_toNat {b v : ℕ} (hb : b = 4 ∨ b = 8) (hv : v < 32) :
    (((1#32 <<< v) - 1#32).signExtend (8 * b)).toNat = 2 ^ v - 1 := by
  rcases hb with rfl | rfl
  · interval_cases v <;> decide
  · interval_cases v <;> decide

/-- Adding bits below the trailing zeros of a word does not leave it. -/
theorem add_mod_lt_of_dvd {v w x o : ℕ} (hv : v ≤ w) (hx : x < 2 ^ w) (hd : 2 ^ v ∣ x) :
    x + o % 2 ^ v < 2 ^ w := by
  obtain ⟨q, rfl⟩ := hd
  have hw : 2 ^ w = 2 ^ v * 2 ^ (w - v) := by rw [← pow_add]; congr 1; omega
  have hq : q + 1 ≤ 2 ^ (w - v) := by
    rw [hw] at hx
    exact Nat.lt_of_mul_lt_mul_left hx
  have hlow : o % 2 ^ v < 2 ^ v := Nat.mod_lt _ (by positivity)
  calc 2 ^ v * q + o % 2 ^ v < 2 ^ v * (q + 1) := by rw [Nat.mul_add, Nat.mul_one]; omega
    _ ≤ 2 ^ v * 2 ^ (w - v) := Nat.mul_le_mul_left _ hq
    _ = 2 ^ w := hw.symm

/-- **The entropy is added to the number**: no carry leaves the first word. -/
theorem readdEntropy_ofLE {b bs o : ℕ} {hash : List Byte} (hb : b = 4 ∨ b = 8) (h0 : 0 < bs)
    (hlt : bs < 2 ^ 32) (hl : b ≤ hash.length) (hd : 2 ^ padicValNat 2 bs ∣ ofLE hash) :
    ofLE (readdEntropy b bs o hash) = ofLE hash + o % 2 ^ padicValNat 2 bs := by
  have hffs : ffs bs = padicValNat 2 bs + 1 := ffs_eq h0 (by omega)
  have hv := padicValNat_lt_of_lt h0 hlt
  generalize padicValNat 2 bs = v at hffs hv hd
  unfold readdEntropy
  simp only [hffs, Nat.add_sub_cancel]
  split_ifs with hpos
  · have htake : (hash.take b).length = b := by rw [List.length_take]; omega
    have h256 : 256 ^ b = 2 ^ (8 * b) := by rw [pow_mul]; norm_num
    have hword : ofLE (hash.take b) < 2 ^ (8 * b) := by
      have := ofLE_lt (hash.take b)
      rwa [htake, h256] at this
    have hsplit : ofLE hash = ofLE (hash.take b) + 2 ^ (8 * b) * ofLE (hash.drop b) := by
      conv_lhs => rw [← List.take_append_drop b hash]
      rw [ofLE_append, htake, h256]
    have hdvd : 2 ^ v ∣ ofLE (hash.take b) := by
      have hpow : 2 ^ v ∣ 2 ^ (8 * b) * ofLE (hash.drop b) :=
        Dvd.dvd.mul_right (pow_dvd_pow 2 (by omega)) _
      rw [hsplit] at hd
      exact (Nat.dvd_add_left hpow).1 hd
    have hsum := add_mod_lt_of_dvd (o := o) (show v ≤ 8 * b by omega) hword hdvd
    rw [mask_toNat hb hv, Nat.and_two_pow_sub_one_eq_mod, splice, List.take_zero, List.nil_append,
      length_toLE, Nat.zero_add, ofLE_append, length_toLE, ofLE_toLE, h256, Nat.mod_eq_of_lt hsum,
      hsplit]
    ring
  · rw [show v = 0 by omega, pow_zero, Nat.mod_one, Nat.add_zero]

/-- The number of the working hash after a round. -/
def roundHash (bs : ℕ) (hash : List Byte) : List Byte :=
  toLE hash.length (mulReadd (8 * hash.length) (padicValNat 2 bs) bs (ofLE hash))

@[simp] theorem length_roundHash (bs : ℕ) (hash : List Byte) :
    (roundHash bs hash).length = hash.length := length_toLE _ _

/-- **One round**, for either width: the number is multiplied with the overflow
    added back, and the overflow is the new offset. -/
theorem bloomRound_eq {b : ℕ} {mul : List Byte → ℕ → Option (List Byte × ℕ)} (hw : MulWidth b mul)
    {bs : ℕ} {hash : List Byte} {offsets : List ℕ} (h0 : 0 < bs) (hlt : bs < 2 ^ 32)
    (hl0 : 0 < hash.length) (hl : hash.length % b = 0) :
    bloomRound b mul (hash, offsets) bs =
      some (roundHash bs hash, insertOffset (ofLE hash * bs / 2 ^ (8 * hash.length)) offsets) := by
  have hb := hw.cases
  have hbl : b ≤ hash.length := Nat.le_of_dvd hl0 (Nat.dvd_of_mod_eq_zero hl)
  have h256 : 256 ^ hash.length = 2 ^ (8 * hash.length) := by rw [pow_mul]; norm_num
  have hbs : bs ≤ 256 ^ b := by rcases hb with rfl | rfl <;> omega
  have hn : hash.length = hash.length / b * b := (Nat.div_mul_cancel (Nat.dvd_of_mod_eq_zero hl)).symm
  obtain ⟨hlow, hhigh⟩ := byteSliceMulLoop_eq hbs h0 hn
  have hlen := byteSliceMulLoop_length b bs (hash.length / b) hash 0
  rw [← hn] at hlen
  rw [h256] at hlow hhigh
  rw [bloomRound, hw.eq hl]
  simp only [Option.bind_eq_bind, Option.bind_some, Option.some.injEq, Prod.mk.injEq]
  generalize byteSliceMulLoop b bs (hash.length / b) hash 0 = r at hlow hhigh hlen ⊢
  have hover : r.2 < 2 ^ 32 := by
    rw [hhigh]
    refine lt_of_le_of_lt ?_ hlt
    refine Nat.div_le_of_le_mul ?_
    rw [Nat.mul_comm]
    have := ofLE_lt hash
    rw [h256] at this
    exact Nat.mul_comm bs _ ▸ Nat.mul_le_mul_left bs this.le
  refine ⟨?_, by rw [hhigh] at hover ⊢; rw [Nat.mod_eq_of_lt hover]⟩
  -- the product keeps the trailing zeros of the multiplier
  have hdvd : 2 ^ padicValNat 2 bs ∣ ofLE r.1 := by
    have hv := padicValNat_lt_of_lt h0 hlt
    have hpow : 2 ^ padicValNat 2 bs ∣ 2 ^ (8 * hash.length) := pow_dvd_pow 2 (by omega)
    rw [hlow]
    exact (Nat.dvd_mod_iff hpow).2 (Dvd.dvd.mul_left pow_padicValNat_dvd _)
  have hnum := readdEntropy_ofLE (o := r.2) hb h0 hlt (by omega) hdvd
  rw [hlow, hhigh] at hnum
  have hrlen : (readdEntropy b bs r.2 r.1).length = hash.length := by
    rw [length_readdEntropy (by omega), hlen]
  rw [roundHash, mulReadd, ← hnum, ← hhigh, ← hrlen, toLE_ofLE]

/-- One round on the number of the hash and the offsets. -/
def roundStep (state : List Byte × List ℕ) (bs : ℕ) : List Byte × List ℕ :=
  (roundHash bs state.1, insertOffset (ofLE state.1 * bs / 2 ^ (8 * state.1.length)) state.2)

/-- **Any number of rounds**, for either width. -/
theorem foldlM_bloomRound {b : ℕ} {mul : List Byte → ℕ → Option (List Byte × ℕ)}
    (hw : MulWidth b mul) : ∀ {multipliers : List ℕ} {state : List Byte × List ℕ},
      (∀ bs ∈ multipliers, 0 < bs ∧ bs < 2 ^ 32) → 0 < state.1.length → state.1.length % b = 0 →
      multipliers.foldlM (bloomRound b mul) state = some (multipliers.foldl roundStep state)
  | [], _, _, _, _ => rfl
  | bs :: multipliers, (hash, offsets), hm, h0, hl => by
    obtain ⟨hpos, hlt⟩ := hm bs List.mem_cons_self
    have hlen : (roundStep (hash, offsets) bs).1.length = hash.length := length_roundHash bs hash
    have hround : bloomRound b mul (hash, offsets) bs = some (roundStep (hash, offsets) bs) :=
      bloomRound_eq hw hpos hlt h0 hl
    rw [List.foldlM_cons, hround, List.foldl_cons]
    exact foldlM_bloomRound hw (fun bs h => hm bs (List.mem_cons_of_mem _ h)) (by rw [hlen]; exact h0)
      (by rw [hlen]; exact hl)

theorem mem_bloomMultipliers {num filtersize bs : ℕ} (h2 : filtersize < 2 ^ 29)
    (h : bs ∈ bloomMultipliers num filtersize) : 0 < bs ∧ bs < 2 ^ 32 := by
  obtain ⟨i, hi, rfl⟩ := List.mem_map.1 h
  rw [List.mem_range] at hi
  omega

/-- The state after some rounds, for hashes that either loop can take. -/
theorem bloomStateAfter_eq (hasByteSliceMul64 : Bool) {num filtersize : ℕ} {hash : List Byte}
    (h2 : filtersize < 2 ^ 29) (h0 : 0 < hash.length) (h8 : hash.length % 8 = 0) (j : ℕ) :
    bloomStateAfter hasByteSliceMul64 num filtersize hash j =
      some (((bloomMultipliers num filtersize).take j).foldl roundStep (hash, [])) := by
  have hm : ∀ bs ∈ (bloomMultipliers num filtersize).take j, 0 < bs ∧ bs < 2 ^ 32 := fun bs h =>
    mem_bloomMultipliers h2 (List.mem_of_mem_take h)
  have h4 : hash.length % 4 = 0 := by omega
  rw [bloomStateAfter]
  cases hasByteSliceMul64 with
  | true =>
    rw [if_pos ⟨rfl, h8⟩]
    exact foldlM_bloomRound .mul64 hm h0 h8
  | false =>
    rw [if_neg (fun h => Bool.false_ne_true h.1)]
    exact foldlM_bloomRound .mul32 hm h0 h4

/-- **The builds agree**: with and without the 64-bit multiplication the working
    hash is the same after every round and so are the offsets, and what one
    build stores in a filter the other finds. -/
theorem bloomRounds_agree {filtersize k : ℕ} {hash : List Byte} (h1 : 1 ≤ filtersize)
    (h2 : filtersize < 2 ^ 29) (hk : 1 ≤ k) (h0 : 0 < hash.length) (h8 : hash.length % 8 = 0) :
    (∀ j, (bloomStateAfter true k filtersize hash j).isSome ∧
      bloomStateAfter true k filtersize hash j = bloomStateAfter false k filtersize hash j) ∧
    bloomDetermineOffsetsWith true k filtersize hash =
      bloomDetermineOffsetsWith false k filtersize hash ∧
    ∀ (stored searched : Bool) (filter filter' : ByteSlice), filter.len = filtersize →
      bloomSetWith stored filter hash k = some filter' →
      bloomIsSetWith searched filter' hash k = some true := by
  have hstate : ∀ j, bloomStateAfter true k filtersize hash j =
      bloomStateAfter false k filtersize hash j := fun j => by
    rw [bloomStateAfter_eq true h2 h0 h8, bloomStateAfter_eq false h2 h0 h8]
  have hoffs : bloomDetermineOffsetsWith true k filtersize hash =
      bloomDetermineOffsetsWith false k filtersize hash := by
    rw [bloomDetermineOffsetsWith_eq true h1 h2 hk h0, bloomDetermineOffsetsWith_eq false h1 h2 hk h0,
      hstate]
  have hany : ∀ build : Bool, bloomDetermineOffsetsWith build k filtersize hash =
      bloomDetermineOffsetsWith true k filtersize hash := by
    intro build
    cases build with
    | true => rfl
    | false => exact hoffs.symm
  refine ⟨fun j => ⟨?_, hstate j⟩, hoffs, fun stored searched filter filter' hlen hset => ?_⟩
  · rw [bloomStateAfter_eq true h2 h0 h8, Option.isSome_some]
  · obtain ⟨offsets, he, hl, ho, hs⟩ :=
      bloomDetermineOffsetsWith_spec true h1 h2 hk h0 (show hash.length % 4 = 0 by omega)
    have hin : ∀ o ∈ offsets ++ List.replicate (k - min k (8 * filtersize)) 0,
        o < 8 * filter.len := fun o h => by
      rw [hlen]
      exact ho o ((mem_append_replicate_iff (by omega) hl ho hs).1 h)
    obtain ⟨filter₁, hset₁, -, hlen₁, hbits⟩ := byteSliceSetBits_spec hin
    rw [bloomSetWith, hlen, hany, he] at hset
    have hfilter : filter₁ = filter' := Option.some.inj (hset₁.symm.trans hset)
    rw [← hfilter, bloomIsSetWith, hlen₁, hlen, hany, he]
    have hall : byteSliceAllBitsSet filter₁ _ = _ :=
      byteSliceAllBitsSet_eq fun o h => by rw [hlen₁]; exact hin o h
    refine hall.trans (congrArg some (List.all_eq_true.2 fun o h => ?_))
    rw [hbits, decide_eq_true h, Bool.or_true]

/-- A hash of eight bytes, in a filter of one byte. -/
theorem bloomRounds_agree_one_byte :
    bloomDetermineOffsetsWith true 3 1 (List.replicate 8 7#8) =
      bloomDetermineOffsetsWith false 3 1 (List.replicate 8 7#8) :=
  (bloomRounds_agree (by decide) (by decide) (by decide) (by decide) (by decide)).2.1

/-! ## The mask in `int` -/

/-- `x << n` in `int`: undefined when a bit is shifted into the sign or out. -/
def intShl (x : ℤ) (n : ℕ) : Option ℤ :=
  if n < 32 ∧ 0 ≤ x ∧ x * 2 ^ n < 2 ^ 31 then some (x * 2 ^ n) else none

/-- `x - y` in `int`: undefined when it overflows. -/
def intSub (x y : ℤ) : Option ℤ :=
  if -2 ^ 31 ≤ x - y ∧ x - y < 2 ^ 31 then some (x - y) else none

/-- `(1 << (lost_bits - 1)) - 1`, evaluated in `int`. -/
def entropyMask (lostBits : ℕ) : Option ℤ := do
  let shifted ← intShl 1 (lostBits - 1)
  intSub shifted 1

/-- The mask of a round is computed within `int`, and selects the trailing zero
    bits of `bs`. -/
def MaskOk (bs : ℕ) : Prop := entropyMask (ffs bs) = some (2 ^ padicValNat 2 bs - 1)

theorem entropyMask_eq {v : ℕ} (hv : v < 32) :
    entropyMask (v + 1) = if v = 31 then none else some (2 ^ v - 1) := by
  interval_cases v <;> decide

/-- Only `2 ^ 31` has its lowest bit at the edge of `int`. -/
theorem maskOk_iff {bs : ℕ} (h0 : 0 < bs) (hlt : bs < 2 ^ 32) : MaskOk bs ↔ bs ≠ 2 ^ 31 := by
  have hv := padicValNat_lt_of_lt h0 hlt
  have hedge : padicValNat 2 bs = 31 ↔ bs = 2 ^ 31 := by
    constructor
    · intro h
      obtain ⟨u, hu, he⟩ := exists_odd_part h0
      rw [h] at he
      have hu1 : u = 1 := by
        have hpos := hu.pos
        omega
      rw [he, hu1, Nat.mul_one]
    · rintro rfl
      exact padicValNat.prime_pow 31
  rw [MaskOk, ffs_eq h0 (by omega), entropyMask_eq hv, Ne, ← hedge]
  split_ifs with h
  · simp [h]
  · simp [h]

/-- **The mask of every round** is computed within `int`, unless the free bits
    of the filter come down to `2 ^ 31` before the last round. -/
theorem entropyMasks_iff {filtersize k : ℕ} (h2 : filtersize < 2 ^ 29) :
    (∀ bs ∈ bloomMultipliers k filtersize, MaskOk bs) ↔
      ¬ (2 ^ 31 ≤ 8 * filtersize ∧ 8 * filtersize - 2 ^ 31 < min k (8 * filtersize)) := by
  constructor
  · rintro h ⟨hge, hlt⟩
    have hmem : 2 ^ 31 ∈ bloomMultipliers k filtersize :=
      List.mem_map.2 ⟨8 * filtersize - 2 ^ 31, List.mem_range.2 hlt, by omega⟩
    exact (maskOk_iff (by norm_num) (by norm_num)).1 (h _ hmem) rfl
  · intro h bs hbs
    obtain ⟨hpos, hlt⟩ := mem_bloomMultipliers h2 hbs
    refine (maskOk_iff hpos hlt).2 ?_
    rintro rfl
    obtain ⟨i, hi, he⟩ := List.mem_map.1 hbs
    rw [List.mem_range] at hi
    exact h ⟨by omega, by omega⟩

/-- The rounds of a filter of 4096 bytes. -/
theorem entropyMasks_iff_page :
    (∀ bs ∈ bloomMultipliers 7 4096, MaskOk bs) ↔
      ¬ (2 ^ 31 ≤ 8 * 4096 ∧ 8 * 4096 - 2 ^ 31 < min 7 (8 * 4096)) :=
  entropyMasks_iff (by norm_num)

/-- A filter of `2 ^ 28` bytes starts with `2 ^ 31` free bits. -/
theorem entropyMask_undefined :
    ¬ ∀ bs ∈ bloomMultipliers 1 (2 ^ 28), MaskOk bs := fun h =>
  (maskOk_iff (by norm_num) (by norm_num)).1
    (h (2 ^ 31) (List.mem_map.2 ⟨0, List.mem_range.2 (by norm_num), by norm_num⟩)) rfl

end Honas

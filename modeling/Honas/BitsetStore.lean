/-
  Bit sets are finite sets (`include/bitset.h`).

  A program has any number of bit sets and applies the operations to them in
  any order; the specification keeps the number of bits and a finite set of
  indices for each.  `runBitsetOp_spec`: as long as no size wraps, every
  operation on the bit sets follows the operation on the finite sets, in either
  representation.

  `bitsetOps_iff`: exactly the runs that create no set of more than `2^64 - 8`
  bits show the finite sets, after every operation.
-/
import Honas.Bitset
import Honas.Lib.Run

namespace Honas

open Bits

/-! ## Operations -/

/-- An operation on the bit sets of a program, which are numbered. -/
inductive BitsetOp
  | create (x numBits : ℕ)
  | setBit (x idx : ℕ)
  | unsetBit (x idx : ℕ)
  | clear (x : ℕ)
  | bitwiseOr (target other : ℕ)
  | bitwiseAnd (target other : ℕ)
deriving DecidableEq

/-- The bit sets of a program. -/
abbrev BitsetStore := ℕ → Option Bitset

/-- Put the result of an operation in place. -/
def storeAt {α : Type*} (store : ℕ → Option α) (x : ℕ) (value : Option α) : Option (ℕ → Option α) :=
  value.map fun v => Function.update store x (some v)

/-- An operation; `none` where an assertion fails. -/
def runBitsetOp (store : BitsetStore) : BitsetOp → Option BitsetStore
  | .create x numBits => storeAt store x (bitsetCreate numBits)
  | .setBit x idx => storeAt store x ((store x).bind fun set => bitsetSetBit set idx)
  | .unsetBit x idx => storeAt store x ((store x).bind fun set => bitsetUnsetBit set idx)
  | .clear x => storeAt store x ((store x).map bitsetClear)
  | .bitwiseOr x y => storeAt store x ((store x).bind fun target => (store y).bind fun other =>
      bitsetBitwiseOr target other)
  | .bitwiseAnd x y => storeAt store x ((store x).bind fun target => (store y).bind fun other =>
      bitsetBitwiseAnd target other)

/-- The finite sets, with the number of their possible members. -/
abbrev FinsetStore := ℕ → Option (ℕ × Finset ℕ)

/-- An operation on the finite sets; `none` where it is not allowed. -/
def specBitsetOp (store : FinsetStore) : BitsetOp → Option FinsetStore
  | .create x numBits =>
    storeAt store x (if 1 ≤ numBits ∧ numBits < 2 ^ 64 then some (numBits, ∅) else none)
  | .setBit x idx => storeAt store x ((store x).bind fun s =>
      if idx < s.1 then some (s.1, insert idx s.2) else none)
  | .unsetBit x idx => storeAt store x ((store x).bind fun s =>
      if idx < s.1 then some (s.1, s.2.erase idx) else none)
  | .clear x => storeAt store x ((store x).map fun s => (s.1, ∅))
  | .bitwiseOr x y => storeAt store x ((store x).bind fun s => (store y).bind fun t =>
      if s.1 = t.1 then some (s.1, s.2 ∪ t.2) else none)
  | .bitwiseAnd x y => storeAt store x ((store x).bind fun s => (store y).bind fun t =>
      if s.1 = t.1 then some (s.1, s.2 ∩ t.2) else none)

/-- The size of a created set does not wrap in `num_bits + 7`. -/
def BitsetOp.Roomy : BitsetOp → Prop
  | .create _ numBits => numBits + 7 < 2 ^ 64
  | _ => True

/-! ## One set -/

/-- The bits of a set are the members of a finite set. -/
structure Bitset.Holds (set : Bitset) (s : ℕ × Finset ℕ) : Prop extends set.Fits s.1 where
  bits : ∀ i, bitAt set.repr.bytes i = decide (i ∈ s.2)
  lt : ∀ i ∈ s.2, i < s.1

/-- What the functions of a bit set tell about it. -/
structure Bitset.Shows (set : Bitset) (s : ℕ × Finset ℕ) : Prop where
  numBits : set.numBits = s.1
  isSet : ∀ i < s.1, bitsetBitIsSet set i = some (decide (i ∈ s.2))
  popcount : bitsetPopcount set = s.2.card
  padding : ∀ i, s.1 ≤ i → bitAt set.repr.bytes i = false

theorem Bitset.Holds.shows {set : Bitset} {s : ℕ × Finset ℕ} (h : set.Holds s) : set.Shows s := by
  have hroom := h.room
  rw [h.numBits, ByteSlice.len] at hroom
  refine ⟨h.numBits, fun i hi => ?_, ?_, fun i hi => ?_⟩
  · have hlen : i < 8 * set.repr.len := hi.trans_le hroom
    rw [bitsetBitIsSet, if_pos (by rw [h.numBits]; exact hi), byteSliceBitIsSet_eq hlen, h.bits]
  · rw [bitsetPopcount, byteSlicePopcount_eq]
    exact countBits_of_bitAt (fun i hi => (h.lt i hi).trans_le hroom) h.bits
  · rw [h.bits, decide_eq_false]
    exact fun hm => absurd (h.lt i hm) (by omega)

/-- Other bytes in the block of a set. -/
theorem Bitset.Fits.withBytes {n : ℕ} {set : Bitset} (h : set.Fits n) {bytes : List Byte}
    (hl : bytes.length = set.repr.bytes.length) :
    Bitset.Fits n { set with repr := { set.repr with bytes } } := by
  refine ⟨⟨h.addr, ?_⟩, h.numBits, hl.trans h.len⟩
  have hroom := h.room
  rw [ByteSlice.len] at hroom
  change set.numBits ≤ 8 * bytes.length
  omega

variable {set other : Bitset} {s t : ℕ × Finset ℕ} {i n : ℕ}

theorem bitsetCreate_holds (hmax : n + 7 < 2 ^ 64) : (bitsetCreate n).Holds (n, ∅) where
  toFits := bitsetCreate_fits hmax
  bits i := by
    rw [decide_eq_false (Finset.notMem_empty i)]
    exact bitAt_replicate _ i
  lt i hi := absurd hi (Finset.notMem_empty i)

theorem bitsetSetBit_holds (h : set.Holds s) (hi : i < s.1) :
    ∃ set', bitsetSetBit set i = some set' ∧ set'.Holds (s.1, insert i s.2) := by
  obtain ⟨set', hs, -⟩ := bitsetSetBit_spec h.toWf (show i < set.numBits by rw [h.numBits]; exact hi)
  obtain ⟨hfit, hbits⟩ := bitsetSetBit_fits h.toFits hi hs
  refine ⟨set', hs, hfit, fun j => ?_, fun j hj => ?_⟩
  · rw [hbits, h.bits]
    simp [Finset.mem_insert, Bool.or_comm]
  · obtain rfl | hj := Finset.mem_insert.1 hj
    · exact hi
    · exact h.lt j hj

theorem bitsetUnsetBit_holds (h : set.Holds s) (hi : i < s.1) :
    ∃ set', bitsetUnsetBit set i = some set' ∧ set'.Holds (s.1, s.2.erase i) := by
  have hnum := h.numBits
  have hroom := h.room
  refine ⟨{ set with repr := { set.repr with bytes := clearBit set.repr.bytes i } }, ?_,
    h.toFits.withBytes (length_clearBit _ _), fun j => ?_, fun j hj => ?_⟩
  · rw [bitsetUnsetBit, if_pos (by omega), byteSliceUnsetBit, if_pos (by omega)]
    rfl
  · rw [bitAt_clearBit, h.bits]
    simp [Finset.mem_erase, Bool.and_comm]
  · exact h.lt j (Finset.mem_of_mem_erase hj)

theorem bitsetClear_holds (h : set.Holds s) : (bitsetClear set).Holds (s.1, ∅) where
  toFits := (bitsetClear_fits h.toFits).1
  bits i := by
    rw [(bitsetClear_fits h.toFits).2 i, decide_eq_false (Finset.notMem_empty i)]
  lt i hi := absurd hi (Finset.notMem_empty i)

theorem bitsetBitwiseOr_holds (h : set.Holds s) (ho : other.Holds t) (heq : s.1 = t.1) :
    ∃ set', bitsetBitwiseOr set other = some set' ∧ set'.Holds (s.1, s.2 ∪ t.2) := by
  have hnum : set.numBits = other.numBits := by rw [h.numBits, ho.numBits, heq]
  refine ⟨_, ?_, h.toFits.withBytes (length_orBytes set.repr.bytes other.repr.bytes),
    fun i => ?_, fun i hi => ?_⟩
  · rw [bitsetBitwiseOr, if_pos hnum, byteSliceBitwiseOr_eq (h.addr.trans ho.addr.symm)]
    rfl
  · have hroom := h.room
    rw [h.numBits, ByteSlice.len] at hroom
    rw [bitAt_orBytes, h.bits, ho.bits]
    by_cases hi : i < 8 * set.repr.bytes.length
    · simp [hi]
    · have hout : i ∉ t.2 := fun hm => by
        have := ho.lt i hm
        omega
      simp [hi, hout]
  · obtain hi | hi := Finset.mem_union.1 hi
    · exact h.lt i hi
    · exact (ho.lt i hi).trans_eq heq.symm

theorem bitsetBitwiseAnd_holds (h : set.Holds s) (ho : other.Holds t) (heq : s.1 = t.1) :
    ∃ set', bitsetBitwiseAnd set other = some set' ∧ set'.Holds (s.1, s.2 ∩ t.2) := by
  have hnum : set.numBits = other.numBits := by rw [h.numBits, ho.numBits, heq]
  have hfit : other.Fits s.1 := heq ▸ ho.toFits
  obtain ⟨set', hs⟩ : ∃ set', bitsetBitwiseAnd set other = some set' := by
    rw [bitsetBitwiseAnd, if_pos hnum, byteSliceBitwiseAnd_eq (h.addr.trans ho.addr.symm)]
    exact ⟨_, rfl⟩
  obtain ⟨hfits, hbits⟩ := bitsetBitwiseAnd_fits h.toFits hfit hs
  refine ⟨set', hs, hfits, fun i => ?_, fun i hi => h.lt i (Finset.mem_inter.1 hi).1⟩
  rw [hbits, h.bits, ho.bits]
  simp [Finset.mem_inter]

/-! ## All sets -/

/-- The sets of a program, each related to the finite set of its number. -/
def StoreRel (R : Bitset → ℕ × Finset ℕ → Prop) (store : BitsetStore) (spec : FinsetStore) : Prop :=
  ∀ x, Option.Rel R (store x) (spec x)

/-- A set of the specification is one of the program. -/
theorem StoreRel.exists_set {R : Bitset → ℕ × Finset ℕ → Prop} {store : BitsetStore}
    {spec : FinsetStore} (h : StoreRel R store spec) {x : ℕ} (hx : spec x = some s) :
    ∃ set, store x = some set ∧ R set s := by
  have hrel := h x
  rw [hx] at hrel
  generalize store x = o at hrel
  cases hrel with
  | some hr => exact ⟨_, rfl, hr⟩

theorem StoreRel.storeAt {store : BitsetStore} {spec : FinsetStore}
    (h : StoreRel Bitset.Holds store spec) (x : ℕ) {value : Option Bitset}
    (hv : ∃ set', value = some set' ∧ set'.Holds s) :
    ∃ store', Honas.storeAt store x value = some store' ∧
      StoreRel Bitset.Holds store' (Function.update spec x (some s)) := by
  obtain ⟨set', rfl, hset⟩ := hv
  refine ⟨Function.update store x (some set'), rfl, fun y => ?_⟩
  by_cases hy : y = x
  · subst hy
    rw [Function.update_self, Function.update_self]
    exact .some hset
  · rw [Function.update_of_ne hy, Function.update_of_ne hy]
    exact h y

/-- An operation on one bit of a set. -/
theorem StoreRel.index {store : BitsetStore} {spec spec' : FinsetStore}
    (h : StoreRel Bitset.Holds store spec) {x idx : ℕ} {op : Bitset → Option Bitset}
    {f : Finset ℕ → Finset ℕ}
    (hop : ∀ {set s}, set.Holds s → idx < s.1 → ∃ set', op set = some set' ∧ set'.Holds (s.1, f s.2))
    (hspec : Honas.storeAt spec x ((spec x).bind fun s =>
      if idx < s.1 then some (s.1, f s.2) else none) = some spec') :
    ∃ store', Honas.storeAt store x ((store x).bind op) = some store' ∧
      StoreRel Bitset.Holds store' spec' := by
  obtain ⟨s', hs, rfl⟩ := Option.map_eq_some_iff.1 hspec
  obtain ⟨s, hx, hs⟩ := Option.bind_eq_some_iff.1 hs
  obtain ⟨hidx, ⟨⟩⟩ := Option.ite_none_right_eq_some.1 hs
  obtain ⟨set, hset, hholds⟩ := h.exists_set hx
  rw [hset]
  exact h.storeAt x (hop hholds hidx)

/-- An operation on a set with another one of the same size. -/
theorem StoreRel.pair {store : BitsetStore} {spec spec' : FinsetStore}
    (h : StoreRel Bitset.Holds store spec) {x y : ℕ} {op : Bitset → Bitset → Option Bitset}
    {f : Finset ℕ → Finset ℕ → Finset ℕ}
    (hop : ∀ {set other s t}, set.Holds s → other.Holds t → s.1 = t.1 →
      ∃ set', op set other = some set' ∧ set'.Holds (s.1, f s.2 t.2))
    (hspec : Honas.storeAt spec x ((spec x).bind fun s => (spec y).bind fun t =>
      if s.1 = t.1 then some (s.1, f s.2 t.2) else none) = some spec') :
    ∃ store', Honas.storeAt store x ((store x).bind fun target => (store y).bind fun other =>
        op target other) = some store' ∧ StoreRel Bitset.Holds store' spec' := by
  obtain ⟨s', hs, rfl⟩ := Option.map_eq_some_iff.1 hspec
  obtain ⟨s, hx, hs⟩ := Option.bind_eq_some_iff.1 hs
  obtain ⟨t, hy, hs⟩ := Option.bind_eq_some_iff.1 hs
  obtain ⟨heq, ⟨⟩⟩ := Option.ite_none_right_eq_some.1 hs
  obtain ⟨set, hset, hholds⟩ := h.exists_set hx
  obtain ⟨other, hother, hother'⟩ := h.exists_set hy
  rw [hset, hother]
  exact h.storeAt x (hop hholds hother' heq)

/-- **One operation** follows the operation on the finite sets. -/
theorem runBitsetOp_spec {store : BitsetStore} {spec spec' : FinsetStore} {op : BitsetOp}
    (h : StoreRel Bitset.Holds store spec) (hroom : op.Roomy)
    (hspec : specBitsetOp spec op = some spec') :
    ∃ store', runBitsetOp store op = some store' ∧ StoreRel Bitset.Holds store' spec' := by
  cases op with
  | create x numBits =>
    obtain ⟨s, hs, rfl⟩ := Option.map_eq_some_iff.1 hspec
    obtain ⟨-, ⟨⟩⟩ := Option.ite_none_right_eq_some.1 hs
    exact h.storeAt x ⟨_, rfl, bitsetCreate_holds hroom⟩
  | setBit x idx => exact h.index bitsetSetBit_holds hspec
  | unsetBit x idx => exact h.index (f := fun s => s.erase idx) bitsetUnsetBit_holds hspec
  | clear x =>
    obtain ⟨s', hs, rfl⟩ := Option.map_eq_some_iff.1 hspec
    obtain ⟨s, hx, rfl⟩ := Option.map_eq_some_iff.1 hs
    obtain ⟨set, hset, hholds⟩ := h.exists_set hx
    rw [runBitsetOp, hset]
    exact h.storeAt x ⟨_, rfl, bitsetClear_holds hholds⟩
  | bitwiseOr x y => exact h.pair bitsetBitwiseOr_holds hspec
  | bitwiseAnd x y => exact h.pair bitsetBitwiseAnd_holds hspec

/-! ## Runs -/

/-- No bit sets. -/
def noSets {α : Type*} : ℕ → Option α := fun _ => none

/-- A size that wraps leaves no room for the first bit. -/
theorem bitsetCreate_wraps (hmax : 2 ^ 64 ≤ n + 7) (hlt : n < 2 ^ 64) :
    bitsetBitIsSet (bitsetCreate n) 0 = none := by
  have hlen : (bitsetCreate n).repr.len = 0 := by
    have hbig : bitsetUsingByteSlice n = true := (bitsetUsingByteSlice_iff n).2 (by omega)
    have hsmall : (n + 7) % 2 ^ 64 < 8 := by omega
    rw [bitsetCreate, ByteSlice.len, List.length_replicate, if_pos hbig,
      Nat.shiftRight_eq_div_pow, Nat.div_eq_of_lt hsmall]
  rw [bitsetBitIsSet, if_pos (show 0 < (bitsetCreate n).numBits from (by omega : 0 < n)),
    byteSliceBitIsSet, if_neg (by omega)]

/-- After each operation the bit sets show the finite sets. -/
def ShowsFinsets (ops : List BitsetOp) : Prop :=
  ∀ pre, pre <+: ops → ∃ store spec, pre.foldlM runBitsetOp noSets = some store ∧
    pre.foldlM specBitsetOp noSets = some spec ∧ StoreRel Bitset.Shows store spec

theorem showsFinsets_of_roomy {ops : List BitsetOp}
    (hspec : (ops.foldlM specBitsetOp noSets).isSome) (h : ∀ op ∈ ops, op.Roomy) :
    ShowsFinsets ops := by
  intro pre hpre
  obtain ⟨end', hend⟩ := Option.isSome_iff_exists.1 hspec
  obtain ⟨spec, hs⟩ := Run.exists_run_prefix hpre hend
  have hinit : StoreRel Bitset.Holds noSets noSets := fun _ => .none
  obtain ⟨store, hrun, hrel⟩ := Run.exists_run_of_spec
    (fun _ _ _ _ => runBitsetOp_spec) pre hinit (fun op hop => h op (hpre.subset hop)) hs
  refine ⟨store, spec, hrun, hs, fun x => ?_⟩
  have hx := hrel x
  generalize store x = set at hx
  generalize spec x = fin at hx
  cases hx with
  | some hset => exact .some hset.shows
  | none => exact .none

theorem roomy_of_showsFinsets {ops : List BitsetOp} (h : ShowsFinsets ops) :
    ∀ op ∈ ops, op.Roomy := by
  intro op hop
  cases op with
  | create x numBits =>
    obtain ⟨pre, rest, rfl⟩ := List.append_of_mem hop
    obtain ⟨store, spec, hrun, hspec, hrel⟩ := h (pre ++ [.create x numBits]) ⟨rest, by simp⟩
    simp only [List.foldlM_append, List.foldlM_cons, List.foldlM_nil, bind_pure] at hrun hspec
    obtain ⟨store₁, -, hrun⟩ := Option.bind_eq_some_iff.1 hrun
    obtain ⟨spec₁, -, hspec⟩ := Option.bind_eq_some_iff.1 hspec
    obtain ⟨s, hs, rfl⟩ := Option.map_eq_some_iff.1 hspec
    obtain ⟨hsize, ⟨⟩⟩ := Option.ite_none_right_eq_some.1 hs
    obtain ⟨set, hset, hshows⟩ := hrel.exists_set (Function.update_self ..)
    obtain rfl : Function.update store₁ x (some (bitsetCreate numBits)) = store :=
      Option.some_inj.1 hrun
    rw [Function.update_self, Option.some_inj] at hset
    subst hset
    by_contra hroom
    have hzero := hshows.isSet 0 hsize.1
    rw [bitsetCreate_wraps (not_lt.1 hroom) hsize.2] at hzero
    cases hzero
  | setBit | unsetBit | clear | bitwiseOr | bitwiseAnd => trivial

/-- **Bit sets are finite sets**, after every operation of a run, exactly if no
    size wraps. -/
theorem bitsetOps_iff {ops : List BitsetOp} (hspec : (ops.foldlM specBitsetOp noSets).isSome) :
    ShowsFinsets ops ↔ ∀ op ∈ ops, op.Roomy :=
  ⟨roomy_of_showsFinsets, showsFinsets_of_roomy hspec⟩

/-- Sets in both representations. -/
def bothLayouts : List BitsetOp :=
  [.create 0 128, .create 1 129, .setBit 1 128, .create 2 129, .setBit 2 5, .bitwiseOr 1 2,
    .setBit 0 127, .unsetBit 1 128, .bitwiseAnd 2 1, .clear 0]

theorem bitsetOps_iff_bothLayouts : ShowsFinsets bothLayouts :=
  (bitsetOps_iff (by decide)).2 (by simp [bothLayouts, BitsetOp.Roomy])

/-- A set of `2^64 - 1` bits has no block: its first bit cannot be read. -/
theorem not_bitsetOps_show : ¬ ∀ ops : List BitsetOp,
    (ops.foldlM specBitsetOp noSets).isSome → ShowsFinsets ops := by
  intro h
  have hroomy := roomy_of_showsFinsets (h [.create 0 (2 ^ 64 - 1)] (by decide)) _
    (List.mem_singleton_self _)
  change 2 ^ 64 - 1 + 7 < 2 ^ 64 at hroomy
  omega

end Honas

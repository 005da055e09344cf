/-
  The layout of a state file.

  `StateParams.Ok` says that the parameters pass the assertions and that the
  size of the state file, computed without wrapping, fits in 32 bits.  Then no
  address computation wraps, and `honasStateCreate` gives a state whose memory
  is laid out as `Shaped` describes (`honasStateCreate_spec`); the memory
  outside of the header is zero.

  `regions_overlap`: the registers of the client counter start inside one of
  the filters, because their address leaves out the offset of the first
  filter.
-/
import Honas.State

namespace Honas

open Bits

/-! ## Header fields -/

theorem HeaderField.offset_add_width_le (f : HeaderField) : f.offset + f.width ≤ sizeofHeader := by
  cases f <;> decide

/-- Two fields do not share a byte. -/
theorem HeaderField.disjoint {f g : HeaderField} (h : f ≠ g) :
    f.offset + f.width ≤ g.offset ∨ g.offset + g.width ≤ f.offset := by
  cases f <;> cases g <;> first | exact absurd rfl h | decide

theorem header_lt {state : HonasState} {field : HeaderField} (h : field.width = 4) :
    state.header field < 2 ^ 32 := by
  have hlt := ofLE_lt (slice state.mmap field.offset field.width)
  have hlen : (slice state.mmap field.offset field.width).length ≤ 4 := by
    rw [slice, List.length_take, h]
    exact min_le_left _ _
  calc state.header field < 256 ^ _ := hlt
    _ ≤ 256 ^ 4 := Nat.pow_le_pow_right (by norm_num) hlen
    _ = 2 ^ 32 := by norm_num

/-- A bit set of all filters has a size that does not wrap. -/
theorem HonasState.numberOfFilters_add_lt (state : HonasState) :
    state.header .numberOfFilters + 7 < 2 ^ 64 := by
  have := @header_lt state .numberOfFilters rfl
  omega

theorem headerGet_lt {m : List Byte} (h : sizeofHeader ≤ m.length) (f : HeaderField) :
    headerGet m f < 256 ^ f.width := by
  have := ofLE_lt (slice m f.offset f.width)
  rwa [length_slice (by have := f.offset_add_width_le; omega)] at this

theorem headerGet_headerSet_self {m : List Byte} (h : sizeofHeader ≤ m.length) (f : HeaderField)
    (v : ℕ) : headerGet (headerSet m f v) f = v % 256 ^ f.width := by
  have hs : slice (splice m f.offset (toLE f.width v)) f.offset (toLE f.width v).length =
      toLE f.width v := slice_splice_self (by have := f.offset_add_width_le; rw [length_toLE]; omega)
  rw [length_toLE] at hs
  rw [headerGet, headerSet, hs, ofLE_toLE]

theorem headerGet_headerSet_of_ne {m : List Byte} (h : sizeofHeader ≤ m.length) {f g : HeaderField}
    (hne : f ≠ g) (v : ℕ) : headerGet (headerSet m g v) f = headerGet m f := by
  have hf := f.offset_add_width_le
  have hg := g.offset_add_width_le
  have hd := HeaderField.disjoint hne
  rw [headerGet, headerSet, slice_splice_of_disjoint (by rw [length_toLE]; omega) (by omega)
    (by rw [length_toLE]; omega)]
  rfl

@[simp] theorem length_headerSet {m : List Byte} (h : sizeofHeader ≤ m.length) (f : HeaderField)
    (v : ℕ) : (headerSet m f v).length = m.length := by
  have := f.offset_add_width_le
  exact length_splice (by rw [length_toLE]; omega)

/-- The bits of the memory outside of the header stay. -/
theorem bitAt_headerSet {m : List Byte} (h : sizeofHeader ≤ m.length) (f : HeaderField) (v : ℕ)
    {i : ℕ} (hi : 8 * sizeofHeader ≤ i) : bitAt (headerSet m f v) i = bitAt m i := by
  have := f.offset_add_width_le
  rw [headerSet, bitAt_splice (by rw [length_toLE]; omega), if_neg (by rw [length_toLE]; omega)]

/-- A field is determined by the bits of the header. -/
theorem headerGet_congr {m m' : List Byte} (hl : m.length = m'.length)
    (h : ∀ i, i < 8 * sizeofHeader → bitAt m i = bitAt m' i) (f : HeaderField) :
    headerGet m f = headerGet m' f := by
  have hf := f.offset_add_width_le
  have : slice m f.offset f.width = slice m' f.offset f.width := by
    refine ext_bits (by simp [slice, hl]) fun i hi => ?_
    rw [bitAt_slice, bitAt_slice]
    by_cases hw : i < 8 * f.width
    · rw [h _ (by omega)]
    · simp [hw]
  rw [headerGet, headerGet, this]

theorem headerGet_replicate (n : ℕ) (f : HeaderField) : headerGet (List.replicate n 0) f = 0 := by
  have hzero : ∀ w, ofLE (List.replicate w 0) = 0 := by
    intro w
    induction w with
    | zero => rfl
    | succ w ih => rw [List.replicate_succ, ofLE, ih]; rfl
  rw [headerGet, slice, List.drop_replicate, List.take_replicate, hzero]

/-- Writing several fields. -/
def headerSetAll (m : List Byte) (fields : List (HeaderField × ℕ)) : List Byte :=
  fields.foldl (fun m e => headerSet m e.1 e.2) m

theorem headerSetAll_spec : ∀ (fields : List (HeaderField × ℕ)) {m : List Byte},
    sizeofHeader ≤ m.length →
    (headerSetAll m fields).length = m.length ∧
    (∀ i, 8 * sizeofHeader ≤ i → bitAt (headerSetAll m fields) i = bitAt m i) ∧
    ∀ f, headerGet (headerSetAll m fields) f =
      match (fields.reverse.find? fun e => e.1 = f) with
      | some e => e.2 % 256 ^ f.width
      | none => headerGet m f
  | [], m, h => ⟨rfl, fun _ _ => rfl, fun _ => rfl⟩
  | e :: fields, m, h => by
    have hlen := length_headerSet h e.1 e.2
    obtain ⟨hl, hb, hg⟩ := headerSetAll_spec fields (m := headerSet m e.1 e.2) (by rw [hlen]; exact h)
    refine ⟨hl.trans hlen, fun i hi => (hb i hi).trans (bitAt_headerSet h _ _ hi), fun f => ?_⟩
    change headerGet (headerSetAll (headerSet m e.1 e.2) fields) f = _
    rw [hg, List.reverse_cons, List.find?_append]
    cases hfind : fields.reverse.find? fun e => e.1 = f with
    | some e' => simp
    | none =>
      by_cases hef : e.1 = f
      · subst hef
        simp [headerGet_headerSet_self h]
      · simp [hef, headerGet_headerSet_of_ne h (Ne.symm hef)]

/-! ## Addresses -/

/-- Clearing the low bits rounds down. -/
theorem and_not_mask (x : BitVec 64) {k : ℕ} (hk : k < 64) :
    (x &&& ~~~(1#64 <<< k - 1#64)).toNat = x.toNat / 2 ^ k * 2 ^ k := by
  have hmask : (1#64 <<< k - 1#64) = BitVec.ofNat 64 (2 ^ k - 1) := by
    have hp : 2 ^ k < 2 ^ 64 := Nat.pow_lt_pow_right (by decide) hk
    have h1 : 1 ≤ 2 ^ k := Nat.one_le_two_pow
    refine BitVec.eq_of_toNat_eq ?_
    rw [BitVec.toNat_sub, BitVec.toNat_shiftLeft, BitVec.toNat_ofNat, BitVec.toNat_ofNat,
      Nat.shiftLeft_eq, show 1 % 2 ^ 64 = 1 by rfl, Nat.one_mul, Nat.mod_eq_of_lt hp]
    omega
  refine Nat.eq_of_testBit_eq fun i => ?_
  rw [BitVec.testBit_toNat, BitVec.getLsbD_and, BitVec.getLsbD_not, hmask, BitVec.getLsbD_ofNat,
    Nat.testBit_two_pow_sub_one, Nat.mul_comm, Nat.testBit_two_pow_mul, Nat.testBit_div_two_pow,
    BitVec.testBit_toNat]
  by_cases hi : i < k
  · simp [hi, show i < 64 by omega]
  · by_cases h64 : i < 64
    · simp [hi, h64, show i - k + k = i by omega, show k ≤ i by omega]
    · simp [h64, BitVec.getLsbD_of_ge x i (by omega), show i - k + k = i by omega]

theorem roundUpToFactorOfTwo_eq {v : ℕ} (h : v < 2 ^ 63) :
    roundUpToFactorOfTwo v pageShift = (v + 4095) / 4096 * 4096 := by
  rw [roundUpToFactorOfTwo, and_not_mask _ (by decide)]
  have : (BitVec.ofNat 64 v + 1#64 <<< pageShift - 1#64).toNat = v + 4095 := by
    have h12 : (1#64 <<< pageShift) = 4096#64 := by decide
    rw [h12, BitVec.toNat_sub, BitVec.toNat_add, BitVec.toNat_ofNat, BitVec.toNat_ofNat,
      BitVec.toNat_ofNat]
    omega
  rw [this]
  rfl

/-! ## Parameters -/

namespace StateParams

variable (p : StateParams)

/-- The number of filters, the bytes of a filter, the number of filters per
    user and the number of hashes. -/
def n : ℕ := p.numberOfFilters.toNat
def len : ℕ := p.numberOfBitsPerFilter.toNat >>> 3
def perUser : ℕ := p.numberOfFiltersPerUser.toNat
def hashes : ℕ := p.numberOfHashes.toNat

/-- The distance between filters, the offset of the first one, and the size of
    the file, without wrapping. -/
def stride : ℕ := (p.len + 4095) / 4096 * 4096
def first : ℕ := (sizeofHeader + 4 * p.n + 4095) / 4096 * 4096
def size : ℕ := p.first + p.n * p.stride + 2 * 16384

/-- Filter `i`. -/
def filterRegion (i : ℕ) : Region := ⟨p.first + i * p.stride, p.len⟩

/-- The registers of a counter. -/
def countRegion : Counter → Region
  | .client => ⟨p.n * p.stride, hllDenseSize⟩
  | .hostName => ⟨p.n * p.stride + 16384, hllDenseSize⟩

/-- The value of each field that describes the configuration. -/
def config : HeaderField → ℕ
  | .fileMagic => honasStateFileMagic
  | .majorVersion => currentHonasStateMajorVersion
  | .minorVersion => currentHonasStateMinorVersion
  | .firstFilterOffset => p.first
  | .paddingAfterFilters => p.stride - p.len
  | .numberOfFilters => p.n
  | .numberOfBitsPerFilter => p.numberOfBitsPerFilter.toNat
  | .numberOfHashes => p.hashes
  | .numberOfFiltersPerUser => p.perUser
  | .flattenThreshold => p.flattenThreshold.toNat
  | .clientHllSize | .hostNameHllSize => hllDenseSize
  | .paddingAfterClientHll | .paddingAfterHostNameHll => 4095
  | _ => 0

/-- The sizes pass the assertions, and the size of the file does not overflow. -/
structure Fits : Prop where
  filters : 0 < p.n
  bits : 0 < p.numberOfBitsPerFilter.toNat
  bits8 : p.numberOfBitsPerFilter.toNat % 8 = 0
  size : p.size < 2 ^ 32

/-- All parameters pass the assertions. -/
structure Ok : Prop extends p.Fits where
  hashes : 0 < p.hashes
  perUser : 0 < p.perUser
  perUser_le : p.perUser ≤ p.n

end StateParams

/-- The fields before the period information. -/
def HeaderField.isConfig (f : HeaderField) : Bool := f.offset < 60

namespace StateParams

variable (p : StateParams)

theorem len_le_stride : p.len ≤ p.stride := by
  rw [stride]; omega

theorem stride_lt : p.stride < p.len + 4096 := by
  rw [stride]; omega

theorem header_le_first : sizeofHeader + 4 * p.n ≤ p.first := by
  rw [first]; omega

theorem first_le_size : p.first ≤ p.size := by
  rw [size]; omega

theorem sizeofHeader_le : sizeofHeader ≤ p.size := by
  have h1 := p.header_le_first
  have h2 := p.first_le_size
  omega

theorem len_lt : p.len < 2 ^ 29 := by
  have := p.numberOfBitsPerFilter.isLt
  rw [len, Nat.shiftRight_eq_div_pow]
  omega

theorem filter_end {i : ℕ} (hi : i < p.n) :
    p.first + i * p.stride + p.stride + 2 * 16384 ≤ p.size := by
  have h1 : (i + 1) * p.stride ≤ p.n * p.stride := Nat.mul_le_mul_right _ hi
  rw [Nat.succ_mul] at h1
  rw [size]; omega

theorem countRegion_end (c : Counter) :
    (p.countRegion c).off + (p.countRegion c).len ≤ p.size := by
  have hd : hllDenseSize = 12289 := by decide
  have hf := p.header_le_first
  rw [size]
  cases c <;> simp only [countRegion, hd] <;> omega

/-- The parts of the file that the paddings fill up. -/
theorem len_add_padding : p.n * p.len + p.n * (p.stride - p.len) = p.n * p.stride := by
  rw [← Nat.mul_add, Nat.add_sub_cancel' p.len_le_stride]

end StateParams

namespace StateParams.Fits

variable {p : StateParams} (h : p.Fits)

include h

theorem len_eq : p.numberOfBitsPerFilter.toNat = 8 * p.len := by
  have := h.bits8
  rw [StateParams.len, Nat.shiftRight_eq_div_pow]; omega

theorem len_pos : 0 < p.len := by
  have h1 := h.bits
  have h2 := h.len_eq
  omega

theorem n_lt : p.n < 2 ^ 32 := by
  have h1 := h.size
  have h2 : p.n ≤ p.n * p.stride :=
    Nat.le_mul_of_pos_right _ (lt_of_lt_of_le h.len_pos p.len_le_stride)
  rw [StateParams.size] at h1; omega

theorem stride_ge : 4096 ≤ p.stride := by
  have := h.len_pos
  rw [StateParams.stride]; omega

/-- The registers of the client counter start behind the header. -/
theorem first_le_count : p.first ≤ p.n * p.stride := by
  have h0 := h.filters
  have h1 : (sizeofHeader + 4 * p.n + 4095) / 4096 ≤ p.n := by unfold sizeofHeader; omega
  exact Nat.mul_le_mul h1 h.stride_ge

theorem countRegion_off_ge (c : Counter) : p.first ≤ (p.countRegion c).off := by
  have := h.first_le_count
  cases c <;> simp only [StateParams.countRegion] <;> omega

end StateParams.Fits

theorem StateParams.Ok.bloomOk {p : StateParams} (h : p.Ok) : BloomOk p.len p.hashes :=
  ⟨h.len_pos, p.len_lt, h.hashes⟩

/-! ## Shaped states -/

/-- The memory and the derived fields of a state are laid out for the
    parameters. -/
structure Shaped (p : StateParams) (state : HonasState) : Prop where
  length : state.mmap.length = p.size
  config : ∀ f : HeaderField, f.isConfig → state.header f = p.config f
  filters : state.filters = (List.range p.n).map p.filterRegion
  countRegisters : ∀ c, state.countRegisters c = p.countRegion c
  combinations : numberOfCombinations p.n p.perUser = some state.nrFiltersPerUserCombinations
  filterBitsSet : state.filterBitsSet = sizeofHeader

theorem mapM_eq_some {α β : Type} {f : α → Option β} {g : α → β} : ∀ {l : List α},
    (∀ a ∈ l, f a = some (g a)) → l.mapM f = some (l.map g)
  | [], _ => rfl
  | a :: l, h => by
    rw [List.forall_mem_cons] at h
    rw [List.mapM_cons, h.1, mapM_eq_some h.2]
    rfl

/-- The size of a file with the regions of the parameters. -/
theorem fileSize_eq {p : StateParams} (h : p.Fits) :
    honasStateFileSize p.first (p.stride - p.len) p.numberOfFilters.toNat
      p.numberOfBitsPerFilter.toNat hllDenseSize 4095 hllDenseSize 4095 = some p.size := by
  have hsz := h.size
  have hd : hllDenseSize = 12289 := rfl
  have hmul : p.numberOfFilters.toNat * (p.numberOfBitsPerFilter.toNat >>> 3) +
      p.numberOfFilters.toNat * (p.stride - p.len) = p.numberOfFilters.toNat * p.stride :=
    p.len_add_padding
  have hfirst : p.first ≥ sizeofHeader := le_trans (by omega) p.header_le_first
  rw [StateParams.size, StateParams.n] at hsz ⊢
  have hsum : (p.first + p.numberOfFilters.toNat * p.stride + 12289 + 4095 + 12289 + 4095) % 2 ^ 32 =
      p.first + p.numberOfFilters.toNat * p.stride + 2 * 16384 := by omega
  rw [honasStateFileSize, if_pos ⟨h.filters, h.bits, h.bits8, hfirst⟩, Nat.add_assoc p.first, hmul,
    hd, u32, hsum]

/-- The size that the header describes. -/
theorem headerFileSize_spec {p : StateParams} (h : p.Fits) {m : List Byte}
    (hc : ∀ f : HeaderField, f.isConfig → headerGet m f = p.config f) :
    headerFileSize m = some p.size := by
  rw [headerFileSize, hc .firstFilterOffset rfl, hc .paddingAfterFilters rfl,
    hc .numberOfFilters rfl, hc .numberOfBitsPerFilter rfl, hc .clientHllSize rfl,
    hc .paddingAfterClientHll rfl, hc .hostNameHllSize rfl, hc .paddingAfterHostNameHll rfl]
  exact fileSize_eq h

/-- **Initialising** a handle for memory with such a header. -/
theorem honasStateInitCommon_eq {p : StateParams} (h : p.Fits) {m : List Byte}
    (hl : m.length = p.size) (hc : ∀ f : HeaderField, f.isConfig → headerGet m f = p.config f)
    (counts : Counter → Hll) :
    honasStateInitCommon m counts = (numberOfCombinations p.n p.perUser).map fun nr =>
      { mmap := m, filters := (List.range p.n).map p.filterRegion, nrFiltersPerUserCombinations := nr
        countRegisters := p.countRegion, filterBitsSet := sizeofHeader, counts } := by
  have hle := p.len_le_stride
  have hsz := h.size
  have hhd := p.sizeofHeader_le
  have hregion : ∀ i ∈ List.range p.n, filterRegion m i = some (p.filterRegion i) := by
    intro i hi
    have hend := p.filter_end (List.mem_range.1 hi)
    have hmul : i * (p.stride - p.len) + i * p.len = i * p.stride := by
      rw [← Nat.mul_add]; congr 1; omega
    rw [filterRegion, hc .firstFilterOffset rfl, hc .paddingAfterFilters rfl,
      hc .numberOfBitsPerFilter rfl]
    simp only [StateParams.config]
    change (if u32 (p.first + i * (p.stride - p.len) + i * p.len) + p.len ≤ m.length then
      some (⟨u32 (p.first + i * (p.stride - p.len) + i * p.len), p.len⟩ : Region) else none) = _
    rw [Nat.add_assoc, hmul, u32, Nat.mod_eq_of_lt (by omega), hl, if_pos (by omega)]
    rfl
  have hcount : u32 ((p.numberOfBitsPerFilter.toNat >>> 3 + (p.stride - p.len)) * p.n) =
      p.n * p.stride := by
    change u32 ((p.len + (p.stride - p.len)) * p.n) = _
    rw [Nat.add_sub_cancel' hle, Nat.mul_comm, u32, Nat.mod_eq_of_lt]
    rw [StateParams.size] at hsz; omega
  have hregisters : (fun c : Counter => match c with
      | .client => (⟨p.n * p.stride, hllDenseSize⟩ : Region)
      | .hostName => ⟨p.n * p.stride + hllDenseSize + 4095, hllDenseSize⟩) = p.countRegion := by
    funext c
    cases c <;> simp only [StateParams.countRegion, Nat.add_assoc]
    rfl
  rw [honasStateInitCommon, if_neg (by omega), headerFileSize_spec h hc]
  simp only [Option.bind_eq_bind, Option.bind_some]
  rw [if_neg (by omega), hc .numberOfFilters rfl, hc .numberOfBitsPerFilter rfl,
    hc .paddingAfterFilters rfl, hc .numberOfFiltersPerUser rfl, hc .clientHllSize rfl,
    hc .paddingAfterClientHll rfl, hc .hostNameHllSize rfl]
  simp only [StateParams.config, hcount, mapM_eq_some hregion, Option.bind_some]
  rw [← hregisters]
  cases numberOfCombinations p.n p.perUser <;> rfl

/-- The value that `honasStateCreate` writes into a field. -/
theorem find_createHeader (p : StateParams) (f : HeaderField) :
    ((createHeader p p.first (p.stride - p.len) 4095).reverse.find? fun e => e.1 = f) =
      if f.isConfig then some (f, p.config f) else none := by
  cases f <;> rfl

/-- Every value of the configuration fits in its field. -/
theorem config_lt {p : StateParams} (h : p.Fits) (f : HeaderField) :
    p.config f < 256 ^ f.width := by
  have hs := h.size
  have hf := p.first_le_size
  have hst := p.stride_lt
  have h1 := p.numberOfFilters.isLt
  have h2 := p.numberOfBitsPerFilter.isLt
  have h3 := p.numberOfHashes.isLt
  have h4 := p.numberOfFiltersPerUser.isLt
  have h5 := p.flattenThreshold.isLt
  have hd : hllDenseSize = 12289 := by decide
  cases f <;> simp only [StateParams.config, HeaderField.width, StateParams.n, StateParams.hashes,
    StateParams.perUser, hd] <;> first | omega | decide

theorem create_first (p : StateParams) :
    u32 (roundUpToFactorOfTwo (sizeofHeader + 4 * p.numberOfFilters.toNat) pageShift) =
      p.first % 2 ^ 32 := by
  have := p.numberOfFilters.isLt
  rw [roundUpToFactorOfTwo_eq (by rw [sizeofHeader]; omega)]
  rfl

theorem create_padding (p : StateParams) :
    u32 (roundUpToFactorOfTwo (p.numberOfBitsPerFilter.toNat >>> 3) pageShift -
      p.numberOfBitsPerFilter.toNat >>> 3) = p.stride - p.len := by
  have hlen := p.len_lt
  have hstride := p.stride_lt
  change u32 (roundUpToFactorOfTwo p.len pageShift - p.len) = _
  rw [roundUpToFactorOfTwo_eq (by omega), u32]
  exact Nat.mod_eq_of_lt (show p.stride - p.len < 2 ^ 32 by omega)

/-- The padding after the registers of a counter. -/
theorem hll_padding : u32 (roundUpToFactorOfTwo hllDenseSize pageShift - hllDenseSize) = 4095 := by
  rw [roundUpToFactorOfTwo_eq (by decide)]
  decide

/-- **Creating a state**: the header is the configuration, and the memory is zero
    outside of it. -/
theorem honasStateCreate_eq {p : StateParams} (h : p.Fits) (hk : 0 < p.hashes)
    (hu : 0 < p.perUser) :
    ∃ m : List Byte, m.length = p.size ∧
      (∀ f : HeaderField, headerGet m f = if f.isConfig then p.config f else 0) ∧
      (∀ i, 8 * sizeofHeader ≤ i → bitAt m i = false) ∧
      honasStateCreate p =
        (honasStateInitCommon m fun _ => hllInit).bind fun state => some (.ok state) := by
  have hsz := h.size
  have hhd := p.sizeofHeader_le
  have hfirst := p.first_le_size
  have hF : u32 (roundUpToFactorOfTwo (sizeofHeader + 4 * p.numberOfFilters.toNat) pageShift) =
      p.first := by
    rw [create_first]
    exact Nat.mod_eq_of_lt (by omega)
  have hpad := create_padding p
  have hsize := fileSize_eq h
  obtain ⟨hl, hb, hg⟩ := headerSetAll_spec (createHeader p p.first (p.stride - p.len) 4095)
    (m := List.replicate p.size 0) (by simpa using hhd)
  refine ⟨headerSetAll (List.replicate p.size 0) (createHeader p p.first (p.stride - p.len) 4095),
    by simpa using hl, fun f => ?_, fun i hi => by rw [hb i hi, bitAt_replicate], ?_⟩
  · rw [hg, find_createHeader]
    split_ifs
    · exact Nat.mod_eq_of_lt (config_lt h f)
    · exact headerGet_replicate _ f
  · have hpos : p.size ≠ 0 := by unfold sizeofHeader at hhd; omega
    have hkn : p.numberOfHashes.toNat > 0 ∧ p.numberOfFiltersPerUser.toNat > 0 := ⟨hk, hu⟩
    rw [honasStateCreate, if_neg (not_not.2 hkn)]
    dsimp only
    rw [hF, hpad, hll_padding, hsize, Option.bind_eq_bind, Option.bind_some, if_neg hpos]
    rfl

theorem honasStateCreate_spec {p : StateParams} (h : p.Ok) :
    ∃ state, honasStateCreate p = some (.ok state) ∧ Shaped p state ∧
      state.counts = (fun _ => hllInit) ∧
      (∀ f : HeaderField, ¬ f.isConfig → state.header f = 0) ∧
      ∀ i, 8 * sizeofHeader ≤ i → bitAt state.mmap i = false := by
  obtain ⟨m, hl, hg, hb, hc⟩ := honasStateCreate_eq h.toFits h.hashes h.perUser
  have hconf : ∀ f : HeaderField, f.isConfig → headerGet m f = p.config f :=
    fun f hf => by rw [hg, if_pos hf]
  have hnr := numberOfCombinations_eq h.perUser_le h.n_lt
  rw [honasStateInitCommon_eq h.toFits hl hconf, hnr, Option.map_some, Option.bind_some] at hc
  exact ⟨_, hc, ⟨hl, hconf, rfl, fun _ => rfl, hnr, rfl⟩, rfl,
    fun f hf => by rw [HonasState.header, hg, if_neg hf], hb⟩

/-! ## Overflowing sizes -/

theorem mapM_eq_none {α β : Type} {f : α → Option β} {a : α} (ha : f a = none) :
    ∀ {l : List α}, a ∈ l → l.mapM f = none
  | x :: l, h => by
    rw [List.mapM_cons]
    rcases List.mem_cons.1 h with rfl | h
    · rw [ha]; rfl
    · rw [mapM_eq_none ha h]
      cases f x <;> rfl

/-- A filter outside of the memory stops the initialisation. -/
theorem honasStateInitCommon_eq_none {m : List Byte} {i : ℕ} (hi : i < headerGet m .numberOfFilters)
    (h : filterRegion m i = none) (counts : Counter → Hll) : honasStateInitCommon m counts = none := by
  have hmap := mapM_eq_none h (List.mem_range.2 hi)
  unfold honasStateInitCommon
  by_cases h1 : m.length < sizeofHeader
  · rw [if_pos h1]; rfl
  · rw [if_neg h1]
    cases headerFileSize m with
    | none => rfl
    | some size =>
      simp only [Option.bind_eq_bind, Option.bind_some, hmap, Option.bind_none, ite_self]

/-- If the size wraps, some filter is not inside of the memory. -/
theorem exists_filter_outside {n stride len first size : ℕ} (h4 : 4096 ∣ stride) (hf : 4096 ∣ first)
    (hle : len ≤ stride) (hlt : stride < len + 4096) (hlen : 0 < len) (hn : n < 2 ^ 32)
    (hfirst : first < 4 * n + 4300)
    (hsize : size = (first % 2 ^ 32 + n * stride + 32768) % 2 ^ 32)
    (hwrap : 2 ^ 32 ≤ first + n * stride + 32768) :
    ∃ i < n, size < (first % 2 ^ 32 + i * stride) % 2 ^ 32 + len := by
  have hst : 4096 ≤ stride := Nat.le_of_dvd (by omega) h4
  have hmul : n * 4096 ≤ n * stride := Nat.mul_le_mul_left _ hst
  have hF : first % 2 ^ 32 % 4096 = 0 := by
    rw [Nat.mod_mod_of_dvd _ (by decide)]; exact Nat.mod_eq_zero_of_dvd hf
  have hNS : n * stride % 4096 = 0 := Nat.mod_eq_zero_of_dvd (h4.mul_left n)
  have hn0 : 0 < n := by
    by_contra h0
    rw [Nat.eq_zero_of_not_pos h0] at hwrap hfirst
    omega
  have hpred : (n - 1) * stride + stride = n * stride := by
    rw [← Nat.succ_mul]; congr 1; omega
  generalize hx : n * stride = x at *
  generalize hy : (n - 1) * stride = y at *
  by_cases hc : first % 2 ^ 32 + x ≤ 2 ^ 32
  · refine ⟨n - 1, by omega, ?_⟩
    rw [hy]
    omega
  · set F := first % 2 ^ 32
    have hdiv := Nat.div_add_mod' (2 ^ 32 - 1 - F) stride
    have hmod := Nat.mod_lt (2 ^ 32 - 1 - F) (show stride > 0 by omega)
    have hFlt : F < 2 ^ 32 := Nat.mod_lt _ (by decide)
    refine ⟨(2 ^ 32 - 1 - F) / stride, ?_, ?_⟩
    · rw [Nat.div_lt_iff_lt_mul (by omega), hx]; omega
    · generalize (2 ^ 32 - 1 - F) / stride * stride = z at *
      omega

/-- The filters of a new header start at these offsets. -/
theorem filterRegion_createHeader {p : StateParams} {m : List Byte} (hm : sizeofHeader ≤ m.length)
    {first padding : ℕ} (hfirst : first < 2 ^ 32) (hpadding : padding < 2 ^ 32) {paddingHll : ℕ}
    (i : ℕ) :
    filterRegion (headerSetAll m (createHeader p first padding paddingHll)) i =
      if u32 (first + i * padding + i * p.len) + p.len ≤ m.length then
        some ⟨u32 (first + i * padding + i * p.len), p.len⟩
      else none := by
  obtain ⟨hl, -, hg⟩ := headerSetAll_spec (createHeader p first padding paddingHll) hm
  have hF : headerGet (headerSetAll m (createHeader p first padding paddingHll))
      .firstFilterOffset = first := (hg _).trans (Nat.mod_eq_of_lt hfirst)
  have hP : headerGet (headerSetAll m (createHeader p first padding paddingHll))
      .paddingAfterFilters = padding := (hg _).trans (Nat.mod_eq_of_lt hpadding)
  have hB : headerGet (headerSetAll m (createHeader p first padding paddingHll))
      .numberOfBitsPerFilter = p.numberOfBitsPerFilter.toNat :=
    (hg _).trans (Nat.mod_eq_of_lt p.numberOfBitsPerFilter.isLt)
  rw [filterRegion, hF, hP, hB, hl]
  rfl

/-- **A state was made, so its size did not overflow.** -/
theorem fits_of_create {p : StateParams} {state : HonasState}
    (hc : honasStateCreate p = some (.ok state)) : p.Fits := by
  have hmul := p.len_add_padding
  have hle := p.len_le_stride
  have hstride := p.stride_lt
  rw [honasStateCreate] at hc
  by_cases hpos : p.numberOfHashes.toNat > 0 ∧ p.numberOfFiltersPerUser.toNat > 0
  case neg =>
    rw [if_pos hpos] at hc
    exact absurd hc (by simp)
  rw [if_neg (not_not.2 hpos)] at hc
  simp only [Option.bind_eq_bind, create_first, create_padding, hll_padding] at hc
  obtain ⟨size, hsize, hc⟩ := Option.bind_eq_some_iff.1 hc
  rw [honasStateFileSize] at hsize
  split_ifs at hsize with hassert
  rw [Option.some_inj] at hsize
  obtain ⟨hn, hbits, hbits8, -⟩ := hassert
  have h4 : 4096 ∣ p.stride := ⟨_, Nat.mul_comm _ _⟩
  have hf4 : 4096 ∣ p.first := ⟨_, Nat.mul_comm _ _⟩
  have hsize' : size = (p.first % 2 ^ 32 + p.n * p.stride + 32768) % 2 ^ 32 := by
    have hadd : ∀ x y z : ℕ, x + y + z + hllDenseSize + 4095 + hllDenseSize + 4095 =
        x + (y + z) + 32768 := fun x y z => by
      have : hllDenseSize = 12289 := by decide
      omega
    rw [← hsize, hadd]
    exact congrArg (fun y => (p.first % 2 ^ 32 + y + 32768) % 2 ^ 32) hmul
  by_cases h0 : size = 0
  · rw [if_pos h0] at hc
    exact absurd hc (by simp)
  rw [if_neg h0] at hc
  obtain ⟨state', hinit, -⟩ := Option.bind_eq_some_iff.1 hc
  have hsz : sizeofHeader ≤ size := by
    have h1 : p.first % 2 ^ 32 % 4096 = 0 := by
      rw [Nat.mod_mod_of_dvd _ (by decide)]; exact Nat.mod_eq_zero_of_dvd hf4
    have h2 : p.n * p.stride % 4096 = 0 := Nat.mod_eq_zero_of_dvd (h4.mul_left _)
    unfold sizeofHeader
    omega
  have hlen : 0 < p.len := by
    have : p.len = p.numberOfBitsPerFilter.toNat / 8 := by
      rw [StateParams.len, Nat.shiftRight_eq_div_pow]
    omega
  refine ⟨hn, hbits, hbits8, ?_⟩
  by_contra hwrap
  obtain ⟨i, hi, hout⟩ := exists_filter_outside (n := p.n) h4 hf4 hle hstride hlen p.numberOfFilters.isLt
    (by unfold StateParams.first sizeofHeader StateParams.n; omega) hsize'
    (by unfold StateParams.size at hwrap; omega)
  -- the filter that does not fit
  have hm : sizeofHeader ≤ (List.replicate size (0 : Byte)).length := by simpa using hsz
  change honasStateInitCommon (headerSetAll (List.replicate size 0)
    (createHeader p (p.first % 2 ^ 32) (p.stride - p.len) 4095)) _ = _ at hinit
  have hN : headerGet (headerSetAll (List.replicate size 0)
      (createHeader p (p.first % 2 ^ 32) (p.stride - p.len) 4095)) .numberOfFilters = p.n :=
    ((headerSetAll_spec _ hm).2.2 _).trans (Nat.mod_eq_of_lt p.numberOfFilters.isLt)
  have hmul' : i * (p.stride - p.len) + i * p.len = i * p.stride := by
    rw [← Nat.mul_add, Nat.sub_add_cancel hle]
  have hnone : filterRegion (headerSetAll (List.replicate size 0)
      (createHeader p (p.first % 2 ^ 32) (p.stride - p.len) 4095)) i = none := by
    rw [filterRegion_createHeader hm (Nat.mod_lt _ (by decide)) (by omega), List.length_replicate,
      Nat.add_assoc, hmul', u32, if_neg (by omega)]
  rw [honasStateInitCommon_eq_none (by rw [hN]; exact hi) hnone] at hinit
  cases hinit

/-- More filters per user than filters: the recursion does not end. -/
theorem numberOfCombinations_eq_none : ∀ {n k : ℕ}, n < k → 2 ≤ k → numberOfCombinations n k = none
  | 0, k, h, h2 => by
    rw [numberOfCombinations, if_neg (by omega), if_neg (by omega)]
  | n + 1, k, h, h2 => by
    rw [numberOfCombinations, if_neg (by omega), if_neg (by omega),
      numberOfCombinations_eq_none (show n < k by omega) h2]
    rfl

/-- A state was made, so the other parameters are in order too. -/
theorem ok_of_create {p : StateParams} {state : HonasState}
    (hc : honasStateCreate p = some (.ok state)) : p.Ok := by
  have h := fits_of_create hc
  have hku : p.numberOfHashes.toNat > 0 ∧ p.numberOfFiltersPerUser.toNat > 0 := by
    by_contra hn
    rw [honasStateCreate, if_pos hn] at hc
    exact absurd hc (by simp)
  refine ⟨h, hku.1, hku.2, ?_⟩
  by_contra hn
  have hf := h.filters
  obtain ⟨m, hl, hg, -, he⟩ := honasStateCreate_eq h hku.1 hku.2
  rw [he, honasStateInitCommon_eq h hl (fun f hf => by rw [hg, if_pos hf]),
    numberOfCombinations_eq_none (by omega) (by omega)] at hc
  exact absurd hc (by simp)

/-! ## Overlapping regions -/

/-- Two regions do not share a byte. -/
def Region.Disjoint (a b : Region) : Prop := a.off + a.len ≤ b.off ∨ b.off + b.len ≤ a.off

/-- The regions of a state: the header, `filter_bits_set`, the filters, and the
    registers of the two counters. -/
def HonasState.regions (state : HonasState) : List Region :=
  ⟨0, sizeofHeader⟩ :: ⟨state.filterBitsSet, 4 * state.header .numberOfFilters⟩ ::
    (state.filters ++ [state.countRegisters .client, state.countRegisters .hostName])

/-- The regions are inside the memory, and no two of them overlap. -/
def HonasState.WellLaidOut (state : HonasState) : Prop :=
  state.regions.Pairwise Region.Disjoint ∧
    ∀ r ∈ state.regions, r.off + r.len ≤ state.mmap.length

/-- The registers of the client counter begin inside one of the filters. -/
theorem client_registers_in_filter {p : StateParams} (h : p.Ok) :
    ∃ i < p.n, ∃ x < p.len, (p.countRegion .client).off = p.first + i * p.stride + x := by
  have hX := h.first_le_count
  have hpos := h.stride_ge
  have hlt := p.stride_lt
  have hf0 : 0 < p.first := by
    have := p.header_le_first
    unfold sizeofHeader at this; omega
  obtain ⟨a, ha⟩ : ∃ a, p.first = 4096 * a := ⟨_, Nat.mul_comm _ _⟩
  obtain ⟨b, hb⟩ : ∃ b, p.stride = 4096 * b := ⟨_, Nat.mul_comm _ _⟩
  set y := p.n * p.stride - p.first with hy
  have hy4 : y % 4096 = 0 := by
    rw [hy, ha, hb, Nat.mul_left_comm, ← Nat.mul_sub, Nat.mul_mod_right]
  refine ⟨y / p.stride, ?_, y % p.stride, ?_, ?_⟩
  · rw [Nat.div_lt_iff_lt_mul (by omega)]; omega
  · -- the offset in the filter is a multiple of the page size
    have hmod : y % p.stride % 4096 = 0 := by
      rw [hb, Nat.mod_mul_right_mod, hy4]
    have := Nat.mod_lt y (show p.stride > 0 by omega)
    omega
  · have := Nat.div_add_mod' y p.stride
    simp only [StateParams.countRegion]
    omega

theorem regions_overlap {p : StateParams} (h : p.Ok) {state : HonasState} (hs : Shaped p state) :
    ¬ state.WellLaidOut := by
  rintro ⟨hpair, -⟩
  obtain ⟨i, hi, x, hx, heq⟩ := client_registers_in_filter h
  rw [HonasState.regions, List.pairwise_cons, List.pairwise_cons, List.pairwise_append] at hpair
  have hmem : p.filterRegion i ∈ state.filters := by
    rw [hs.filters]
    exact List.mem_map_of_mem (List.mem_range.2 hi)
  have hd := hpair.2.2.2.2 _ hmem _ (List.mem_cons_self ..)
  rw [hs.countRegisters] at hd
  have hlen : (p.countRegion .client).len = 12289 := rfl
  rcases hd with hd | hd
  · simp only [StateParams.filterRegion] at hd; omega
  · rw [hlen] at hd
    simp only [StateParams.filterRegion] at hd; omega

/-- **No state is laid out without overlaps.** -/
theorem honasStateCreate_not_wellLaidOut {p : StateParams} {state : HonasState}
    (hc : honasStateCreate p = some (.ok state)) : ¬ state.WellLaidOut := by
  have hok := ok_of_create hc
  obtain ⟨state', hc', hs, -⟩ := honasStateCreate_spec hok
  rw [hc, Option.some_inj, Except.ok.injEq] at hc'
  subst hc'
  exact regions_overlap hok hs

/-- One filter of eight bits, one hash, one filter per user. -/
def smallParams : StateParams := ⟨1, 8, 1, 1, 0⟩

theorem smallParams_ok : smallParams.Ok := by
  refine ⟨⟨?_, ?_, ?_, ?_⟩, ?_, ?_, ?_⟩ <;> decide

/-- Two filters, two or one of them per user. -/
def twoPerUser : StateParams := ⟨2, 8, 1, 2, 0⟩
def onePerUser : StateParams := ⟨2, 8, 1, 1, 0⟩

theorem twoPerUser_ok : twoPerUser.Ok := by
  refine ⟨⟨?_, ?_, ?_, ?_⟩, ?_, ?_, ?_⟩ <;> decide

theorem onePerUser_ok : onePerUser.Ok := by
  refine ⟨⟨?_, ?_, ?_, ?_⟩, ?_, ?_, ?_⟩ <;> decide

theorem smallParams_not_wellLaidOut :
    ∃ state, honasStateCreate smallParams = some (.ok state) ∧ ¬ state.WellLaidOut := by
  obtain ⟨state, hc, -⟩ := honasStateCreate_spec smallParams_ok
  exact ⟨state, hc, honasStateCreate_not_wellLaidOut hc⟩

theorem not_forall_wellLaidOut : ¬ ∀ p : StateParams, p.Fits → ∀ state : HonasState,
    honasStateCreate p = some (.ok state) → state.WellLaidOut := by
  intro hall
  obtain ⟨state, hc, hs, -⟩ := honasStateCreate_spec smallParams_ok
  exact regions_overlap smallParams_ok hs (hall _ smallParams_ok.toFits state hc)

end Honas

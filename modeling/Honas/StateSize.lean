/-
  The arithmetic of the size of a state file (`src/honas_state.c`).

  `honas_state_file_size` returns a `size_t`, but adds and multiplies numbers of
  32 bits; so does `honas_state_init_common` for the start of a filter, before it
  stores the sum in a `size_t`.  The sums wrap if the file has four gigabytes or
  more.

  `sizeExact_iff`: the numbers are those of unbounded arithmetic exactly if the
  size of the file is below `2 ^ 32`.
-/
import Honas.StateLayout

namespace Honas

open Bits

namespace StateParams

variable (p : StateParams)

/-! ## What is computed -/

/-- `first_filter_offset` of `honas_state_create`. -/
def createFirst : ℕ :=
  u32 (roundUpToFactorOfTwo (sizeofHeader + 4 * p.numberOfFilters.toNat) pageShift)

/-- `padding_after_filters` of `honas_state_create`. -/
def createPadding : ℕ :=
  u32 (roundUpToFactorOfTwo (p.numberOfBitsPerFilter.toNat >>> 3) pageShift -
    p.numberOfBitsPerFilter.toNat >>> 3)

/-- `padding_after_client_hll` and `padding_after_host_name_hll` of
    `honas_state_create`. -/
def createPaddingHll : ℕ := u32 (roundUpToFactorOfTwo hllDenseSize pageShift - hllDenseSize)

/-- The size that `honas_state_create` maps. -/
def createSize : Option ℕ :=
  honasStateFileSize p.createFirst p.createPadding p.numberOfFilters.toNat
    p.numberOfBitsPerFilter.toNat hllDenseSize createPaddingHll hllDenseSize createPaddingHll

/-- `filter_begin` of filter `i`, for the header that `honas_state_create` writes. -/
def createFilterBegin (i : ℕ) : ℕ :=
  u32 (p.createFirst + i * p.createPadding + i * (p.numberOfBitsPerFilter.toNat >>> 3))

/-- A state is created with this size. -/
theorem honasStateCreate_size (hk : 0 < p.hashes) (hu : 0 < p.perUser) :
    honasStateCreate p = p.createSize.bind fun size =>
      if size = 0 then some (.error (-1))
      else (honasStateInitCommon (headerSetAll (List.replicate size 0)
        (createHeader p p.createFirst p.createPadding createPaddingHll)) fun _ => hllInit).bind
          fun state => some (.ok state) := by
  have hpos : p.numberOfHashes.toNat > 0 ∧ p.numberOfFiltersPerUser.toNat > 0 := ⟨hk, hu⟩
  rw [honasStateCreate, if_neg (not_not.2 hpos)]
  rfl

/-- The filters of its header start at these offsets. -/
theorem filterRegion_create {m : List Byte} (hm : sizeofHeader ≤ m.length) (i : ℕ) :
    Honas.filterRegion (headerSetAll m
        (createHeader p p.createFirst p.createPadding createPaddingHll)) i =
      if p.createFilterBegin i + p.len ≤ m.length then some ⟨p.createFilterBegin i, p.len⟩
      else none := by
  have hlt : ∀ x : ℕ, u32 x < 2 ^ 32 := fun x => Nat.mod_lt _ (by decide)
  exact filterRegion_createHeader hm (hlt _) (hlt _) i

/-! ## When nothing wraps -/

/-- The products and the sums of `honas_state_file_size`, without wrapping. -/
def sizeTerms : List ℕ :=
  [p.n * p.len, p.n * (p.stride - p.len)] ++
    [p.n * p.len, p.n * (p.stride - p.len), hllDenseSize, 4095, hllDenseSize, 4095].scanl
      (· + ·) p.first

/-- The products and the sums for the start of filter `i`, without wrapping. -/
def filterTerms (i : ℕ) : List ℕ :=
  [i * (p.stride - p.len), i * p.len] ++
    [i * (p.stride - p.len), i * p.len].scanl (· + ·) p.first

/-- What `honas_state_create` asserts of the filters. -/
structure Accepted : Prop where
  filters : 0 < p.n
  bits : 0 < p.numberOfBitsPerFilter.toNat
  bits8 : p.numberOfBitsPerFilter.toNat % 8 = 0

/-- The size and the starts of the filters are those of unbounded arithmetic, and no
    product or sum wraps. -/
structure SizeExact : Prop where
  size : p.createSize = some p.size
  filterBegin : ∀ i < p.n, p.createFilterBegin i = p.first + i * p.stride
  sizeTerms : ∀ x ∈ p.sizeTerms, x < 2 ^ 32
  filterTerms : ∀ i < p.n, ∀ x ∈ p.filterTerms i, x < 2 ^ 32

variable {p}

theorem Accepted.fits (h : p.Accepted) (hsize : p.size < 2 ^ 32) : p.Fits :=
  ⟨h.filters, h.bits, h.bits8, hsize⟩

theorem createFirst_eq (h : p.Fits) : p.createFirst = p.first := by
  have hsize := h.size
  have hfirst := p.first_le_size
  rw [createFirst, create_first]
  exact Nat.mod_eq_of_lt (by omega)

theorem createPadding_eq : p.createPadding = p.stride - p.len := create_padding p

/-- The start of a filter is inside of the file. -/
theorem filterTerms_lt (h : p.Fits) {i : ℕ} (hi : i < p.n) : ∀ x ∈ p.filterTerms i, x < 2 ^ 32 := by
  have hsize := h.size
  have hend := p.filter_end hi
  have hmul : i * (p.stride - p.len) + i * p.len = i * p.stride := by
    rw [← Nat.mul_add, Nat.sub_add_cancel p.len_le_stride]
  simp only [filterTerms, List.cons_append, List.nil_append, List.scanl_cons, List.scanl_nil,
    List.forall_mem_cons]
  refine ⟨?_, ?_, ?_, ?_, ?_, List.forall_mem_nil _⟩ <;> omega

theorem sizeTerms_lt (h : p.Fits) : ∀ x ∈ p.sizeTerms, x < 2 ^ 32 := by
  have hsize := h.size
  have hmul := p.len_add_padding
  have hd : hllDenseSize = 12289 := rfl
  rw [size] at hsize
  simp only [sizeTerms, List.cons_append, List.nil_append, List.scanl_cons, List.scanl_nil,
    List.forall_mem_cons, hd]
  refine ⟨?_, ?_, ?_, ?_, ?_, ?_, ?_, ?_, ?_, List.forall_mem_nil _⟩ <;> omega

/-- **The size and the starts of the filters** are those of unbounded arithmetic
    exactly if the size of the file is a number of 32 bits. -/
theorem sizeExact_iff (h : p.Accepted) : p.SizeExact ↔ p.size < 2 ^ 32 := by
  constructor
  · intro hexact
    have hsize := hexact.size
    rw [createSize, honasStateFileSize] at hsize
    split_ifs at hsize
    rw [← Option.some.inj hsize]
    exact Nat.mod_lt _ (by decide)
  · intro hlt
    have hfits := h.fits hlt
    have hfirst := createFirst_eq hfits
    refine ⟨?_, fun i hi => ?_, sizeTerms_lt hfits, fun i hi => filterTerms_lt hfits hi⟩
    · rw [createSize, hfirst, createPadding_eq, createPaddingHll, hll_padding]
      exact fileSize_eq hfits
    · have hend := p.filter_end hi
      have hmul : i * (p.stride - p.len) + i * p.len = i * p.stride := by
        rw [← Nat.mul_add, Nat.sub_add_cancel p.len_le_stride]
      rw [createFilterBegin, hfirst, createPadding_eq]
      change u32 (p.first + i * (p.stride - p.len) + i * p.len) = _
      rw [Nat.add_assoc, hmul]
      exact Nat.mod_eq_of_lt (by omega)

end StateParams

theorem sizeExact_iff_small : smallParams.SizeExact ↔ smallParams.size < 2 ^ 32 :=
  StateParams.sizeExact_iff ⟨by decide, by decide, by decide⟩

/-- Sixteen filters of 256 megabytes. -/
def wrappingParams : StateParams := ⟨16, 2 ^ 31, 1, 1, 0⟩

/-- The size of 4 gigabytes wraps. -/
theorem sizeExact_wraps :
    wrappingParams.Accepted ∧ wrappingParams.createSize = some 36864 ∧
      wrappingParams.size = 2 ^ 32 + 36864 ∧ ¬ wrappingParams.SizeExact := by
  have hsize : wrappingParams.size = 2 ^ 32 + 36864 := by decide
  have hok : wrappingParams.Accepted := ⟨by decide, by decide, by decide⟩
  refine ⟨hok, by decide +kernel, hsize, fun h => ?_⟩
  have hlt := (StateParams.sizeExact_iff hok).1 h
  rw [hsize] at hlt
  exact absurd hlt (by decide)

end Honas

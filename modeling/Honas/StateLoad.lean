/-
  Loading a state file of which nothing is known (`honas_state_load`).

  `honasStateLoad` stands for the use of a state after loading, so it is undefined
  where a register region is behind the end of the file.  Here the handle is modelled
  with its pointers, and loading only computes them.

  * `loadsWell_iff`: what the caller gets is sound, and the programs do not go on with
    a handle that was not loaded, exactly if the file is empty or a sound state file.
  * `SoundFile.of_size`: if the size that the header describes does not wrap, most of
    a sound file is what the loader checks.
-/
import Honas.StatePersist

namespace Honas

open Bits

/-! ## The handle -/

/-- The pointer to the mapped file: `NULL`, `MAP_FAILED`, or a mapping. -/
inductive Mapping where
  | null
  | failed
  | mapped (bytes : List Byte)
deriving DecidableEq

/-- `honas_state_t`.  Pointers into the mapping are offsets, and `none` is `NULL`. -/
structure StateHandle where
  mmap : Mapping
  size : ℕ
  header : Option ℕ
  filters : Option (List Region)
  countRegisters : Counter → Option Region
  filterBitsSet : Option ℕ
  nrFiltersPerUserCombinations : ℕ

/-- A zeroed handle. -/
def zeroHandle : StateHandle := ⟨.null, 0, none, none, fun _ => none, none, 0⟩

/-- The handle that `honas_state_load` checks for. -/
theorem zeroHandle_isZero : ¬ ¬ (zeroHandle.mmap = .null ∧ zeroHandle.header = none ∧
    zeroHandle.filters = none) :=
  not_not.2 ⟨rfl, rfl, rfl⟩

/-- `honas_state_destroy`, for a handle without counters. -/
def honasStateDestroy (state : StateHandle) : StateHandle :=
  let state := { state with filters := none, header := none }
  match state.mmap with
  | .null => state
  | _ => { state with mmap := .null, size := 0 }

/-- The pointers that `honas_state_init_common` computes. -/
def StateHandle.setPointers (state : StateHandle) (opened : HonasState) : StateHandle :=
  { state with
    filters := some opened.filters
    countRegisters := fun c => some (opened.countRegisters c)
    filterBitsSet := some opened.filterBitsSet
    nrFiltersPerUserCombinations := opened.nrFiltersPerUserCombinations }

/-- `honas_state_load` of a file with the given contents: the result and the handle,
    or `none` when an assertion fails or a recursion does not end. -/
def honasStateLoadHandle (state : StateHandle) (file : Option (List Byte)) :
    Option (ℤ × StateHandle) :=
  if ¬ (state.mmap = .null ∧ state.header = none ∧ state.filters = none) then none
  else
    match file with
    | none => some (-1, honasStateDestroy state)
    | some [] => some (-1, honasStateDestroy { state with size := 0, mmap := .failed })
    | some mmap =>
      let state := { state with size := mmap.length, mmap := .mapped mmap, header := some 0 }
      if mmap.length < 44 ∨ headerGet mmap .fileMagic ≠ honasStateFileMagic ∨
          headerGet mmap .majorVersion ≠ currentHonasStateMajorVersion then
        some (1, honasStateDestroy state)
      else if headerGet mmap .firstFilterOffset < sizeofHeader ∨
          headerGet mmap .numberOfFilters = 0 ∨ headerGet mmap .numberOfBitsPerFilter = 0 ∨
          headerGet mmap .numberOfBitsPerFilter % 8 ≠ 0 ∨ headerGet mmap .numberOfHashes = 0 ∨
          headerGet mmap .clientHllSize ≠ hllDenseSize ∨
          headerGet mmap .hostNameHllSize ≠ hllDenseSize then some (2, honasStateDestroy state)
      else do
        let size ← headerFileSize mmap
        if mmap.length < size then some (2, honasStateDestroy state)
        else
          let opened ← honasStateInitCommon mmap fun _ => hllInit
          -- hllInitFromBuffer asserts the length of the registers
          if (opened.countRegisters .client).len = hllDenseSize ∧
              (opened.countRegisters .hostName).len = hllDenseSize then
            some (0, state.setPointers opened)
          else none

/-! ## The programs -/

/-- What `main` of `honas-search` passes on of a loaded handle. -/
def honasSearchMain (loaded : ℤ × StateHandle) : Option StateHandle :=
  if loaded.1 ≠ -1 then some loaded.2 else none

/-- What `main` of `honas-info` passes on of a loaded handle. -/
def honasInfoMain (loaded : ℤ × StateHandle) : Option StateHandle :=
  if loaded.1 = -1 then none else some loaded.2

/-- What `main` of `honas-combine` passes on of the handles of the destination and of
    the source. -/
def honasCombineMain (dst src : ℤ × StateHandle) : Option (StateHandle × StateHandle) :=
  if dst.1 = -1 then none
  else if src.1 = -1 then none
  else some (dst.2, src.2)

/-! ## Sound results -/

/-- A handle of which nothing is left. -/
structure StateHandle.Cleared (state : StateHandle) : Prop where
  mmap : state.mmap = .null
  header : state.header = none
  filters : state.filters = none
  size : state.size = 0

/-- A handle for a file, with all that it points to inside of it. -/
structure StateHandle.Inside (state : StateHandle) (m : List Byte) : Prop where
  mmap : state.mmap = .mapped m
  size : state.size = m.length
  header : state.header = some 0 ∧ sizeofHeader ≤ m.length
  filters : ∃ filters, state.filters = some filters ∧
    filters.length = headerGet m .numberOfFilters ∧
    ∀ r ∈ filters, r.len = headerGet m .numberOfBitsPerFilter >>> 3 ∧ r.off + r.len ≤ m.length
  counts : ∀ c, ∃ r, state.countRegisters c = some r ∧ r.len = hllDenseSize ∧ r.off + r.len ≤ m.length
  filterBitsSet : ∃ off, state.filterBitsSet = some off ∧
    off + 4 * headerGet m .numberOfFilters ≤ m.length
  perUser : 1 ≤ headerGet m .numberOfFiltersPerUser ∧
    headerGet m .numberOfFiltersPerUser ≤ headerGet m .numberOfFilters

/-- **Loading goes well**: it ends, with a sound result, and no program uses a handle
    that was not loaded. -/
def LoadsWell (m : List Byte) : Prop :=
  ∃ code state, honasStateLoadHandle zeroHandle (some m) = some (code, state) ∧
    (code = 0 → state.Inside m) ∧
    (code ≠ 0 → state.Cleared ∧ honasSearchMain (code, state) = none ∧
      honasInfoMain (code, state) = none ∧
      ∀ other, honasCombineMain (code, state) other = none ∧
        honasCombineMain other (code, state) = none)

/-- Where the loader places filter `i`. -/
def filterBegin (m : List Byte) (i : ℕ) : ℕ :=
  u32 (headerGet m .firstFilterOffset + i * headerGet m .paddingAfterFilters
    + i * (headerGet m .numberOfBitsPerFilter >>> 3))

/-- Where the loader places the registers of the clients. -/
def clientBegin (m : List Byte) : ℕ :=
  u32 ((headerGet m .numberOfBitsPerFilter >>> 3 + headerGet m .paddingAfterFilters) *
    headerGet m .numberOfFilters)

/-- The size that the header describes, in unbounded arithmetic. -/
def describedSize (m : List Byte) : ℕ :=
  headerGet m .firstFilterOffset
    + headerGet m .numberOfFilters * (headerGet m .numberOfBitsPerFilter >>> 3)
    + headerGet m .numberOfFilters * headerGet m .paddingAfterFilters
    + headerGet m .clientHllSize + headerGet m .paddingAfterClientHll
    + headerGet m .hostNameHllSize + headerGet m .paddingAfterHostNameHll

/-- The header passes the checks of the loader. -/
structure CheckedFile (m : List Byte) : Prop where
  length : 44 ≤ m.length
  magic : headerGet m .fileMagic = honasStateFileMagic
  version : headerGet m .majorVersion = currentHonasStateMajorVersion
  first : sizeofHeader ≤ headerGet m .firstFilterOffset
  filters : 0 < headerGet m .numberOfFilters
  bits : 0 < headerGet m .numberOfBitsPerFilter
  bits8 : headerGet m .numberOfBitsPerFilter % 8 = 0
  hashes : 0 < headerGet m .numberOfHashes
  clientHll : headerGet m .clientHllSize = hllDenseSize
  hostNameHll : headerGet m .hostNameHllSize = hllDenseSize
  size : u32 (describedSize m) ≤ m.length

/-- A state file whose header passes the checks, and which is large enough for all that
    the loader places in it. -/
structure SoundFile (m : List Byte) : Prop extends CheckedFile m where
  header : sizeofHeader + 4 * headerGet m .numberOfFilters ≤ m.length
  filterEnd : ∀ i < headerGet m .numberOfFilters,
    filterBegin m i + headerGet m .numberOfBitsPerFilter >>> 3 ≤ m.length
  hostNameEnd : clientBegin m + hllDenseSize + headerGet m .paddingAfterClientHll + hllDenseSize ≤
    m.length
  perUser : 1 ≤ headerGet m .numberOfFiltersPerUser
  perUser_le : headerGet m .numberOfFiltersPerUser ≤ headerGet m .numberOfFilters

/-! ## When loading goes well -/

section

variable {m : List Byte}

/-- **When the pointers can be computed**, and what they are. -/
theorem honasStateInitCommon_eq_some_iff {counts : Counter → Hll} {opened : HonasState} :
    honasStateInitCommon m counts = some opened ↔ sizeofHeader ≤ m.length ∧
      (∃ size, headerFileSize m = some size ∧ size ≤ m.length) ∧
      (∀ i < headerGet m .numberOfFilters,
        filterBegin m i + headerGet m .numberOfBitsPerFilter >>> 3 ≤ m.length) ∧
      ∃ nr, numberOfCombinations (headerGet m .numberOfFilters)
          (headerGet m .numberOfFiltersPerUser) = some nr ∧
        opened = {
          mmap := m, counts
          filters := (List.range (headerGet m .numberOfFilters)).map fun i =>
            ⟨filterBegin m i, headerGet m .numberOfBitsPerFilter >>> 3⟩
          nrFiltersPerUserCombinations := nr
          countRegisters := fun
            | .client => ⟨clientBegin m, headerGet m .clientHllSize⟩
            | .hostName => ⟨clientBegin m + headerGet m .clientHllSize +
                headerGet m .paddingAfterClientHll, headerGet m .hostNameHllSize⟩
          filterBitsSet := sizeofHeader } := by
  have hregion : ∀ {i : ℕ}, filterBegin m i + headerGet m .numberOfBitsPerFilter >>> 3 ≤ m.length →
      filterRegion m i = some ⟨filterBegin m i, headerGet m .numberOfBitsPerFilter >>> 3⟩ :=
    fun h => if_pos h
  have hfilters : (∀ i < headerGet m .numberOfFilters,
        filterBegin m i + headerGet m .numberOfBitsPerFilter >>> 3 ≤ m.length) →
      (List.range (headerGet m .numberOfFilters)).mapM (filterRegion m) =
        some ((List.range (headerGet m .numberOfFilters)).map fun i =>
          ⟨filterBegin m i, headerGet m .numberOfBitsPerFilter >>> 3⟩) :=
    fun h => mapM_eq_some fun i hi => hregion (h i (List.mem_range.1 hi))
  constructor
  · intro h
    have hends : ∀ i < headerGet m .numberOfFilters,
        filterBegin m i + headerGet m .numberOfBitsPerFilter >>> 3 ≤ m.length := by
      intro i hi
      by_contra hout
      rw [honasStateInitCommon_eq_none hi (if_neg hout)] at h
      cases h
    rw [honasStateInitCommon] at h
    by_cases hlen : m.length < sizeofHeader
    · rw [if_pos hlen] at h
      cases h
    rw [if_neg hlen] at h
    obtain ⟨size, hsize, h⟩ := Option.bind_eq_some_iff.1 h
    dsimp only at h
    by_cases hle : m.length < size
    · rw [if_pos hle] at h
      cases h
    rw [if_neg hle, hfilters hends, Option.bind_eq_bind, Option.bind_some] at h
    obtain ⟨nr, hnr, h⟩ := Option.bind_eq_some_iff.1 h
    exact ⟨not_lt.1 hlen, ⟨size, hsize, not_lt.1 hle⟩, hends, nr, hnr, (Option.some.inj h).symm⟩
  · rintro ⟨hlen, ⟨size, hsize, hle⟩, hends, nr, hnr, rfl⟩
    rw [honasStateInitCommon, if_neg (not_lt.2 hlen), hsize, Option.bind_eq_bind, Option.bind_some,
      if_neg (not_lt.2 hle), hfilters hends, Option.bind_eq_bind, Option.bind_some, hnr]
    rfl

/-- The size that the loader compares is the described one, as a number of 32 bits. -/
theorem CheckedFile.headerFileSize_eq (h : CheckedFile m) :
    headerFileSize m = some (u32 (describedSize m)) :=
  if_pos ⟨h.filters, h.bits, h.bits8, h.first⟩

/-- A checked file gets to `honas_state_init_common`. -/
theorem CheckedFile.load (h : CheckedFile m) : honasStateLoadHandle zeroHandle (some m) =
    (honasStateInitCommon m fun _ => hllInit).bind fun opened =>
      if (opened.countRegisters .client).len = hllDenseSize ∧
          (opened.countRegisters .hostName).len = hllDenseSize then
        some (0, { zeroHandle with size := m.length, mmap := .mapped m, header := some 0 }.setPointers
          opened)
      else none := by
  have hversion : ¬ (m.length < 44 ∨ headerGet m .fileMagic ≠ honasStateFileMagic ∨
      headerGet m .majorVersion ≠ currentHonasStateMajorVersion) := by
    have h1 := h.length
    have h2 := h.magic
    have h3 := h.version
    omega
  have hheader : ¬ (headerGet m .firstFilterOffset < sizeofHeader ∨
      headerGet m .numberOfFilters = 0 ∨ headerGet m .numberOfBitsPerFilter = 0 ∨
      headerGet m .numberOfBitsPerFilter % 8 ≠ 0 ∨ headerGet m .numberOfHashes = 0 ∨
      headerGet m .clientHllSize ≠ hllDenseSize ∨
      headerGet m .hostNameHllSize ≠ hllDenseSize) := by
    have h1 := h.first
    have h2 := h.filters
    have h3 := h.bits
    have h4 := h.bits8
    have h5 := h.hashes
    have h6 := h.clientHll
    have h7 := h.hostNameHll
    omega
  cases m with
  | nil => exact absurd h.length (by decide)
  | cons b bs =>
    rw [honasStateLoadHandle.eq_def, if_neg zeroHandle_isZero]
    dsimp only
    rw [if_neg hversion, if_neg hheader, h.headerFileSize_eq, Option.bind_eq_bind, Option.bind_some,
      if_neg (not_lt.2 h.size)]
    rfl

/-- Setting up a counter keeps the mapping and the regions, and asserts the
    length of its registers. -/
theorem initCount_eq_some {t t' : HonasState} {c : Counter}
    (h : ((readRegion t.mmap (t.countRegisters c)).bind fun registers =>
      (hllInitFromBuffer registers).bind fun hll => some (t.setCount c hll)) = some t') :
    t'.mmap = t.mmap ∧ t'.filters = t.filters ∧ t'.countRegisters = t.countRegisters ∧
      (t.countRegisters c).len = hllDenseSize := by
  obtain ⟨registers, hread, h⟩ := Option.bind_eq_some_iff.1 h
  obtain ⟨hll, hinit, h⟩ := Option.bind_eq_some_iff.1 h
  rw [readRegion, Option.ite_none_right_eq_some, Option.some_inj] at hread
  obtain ⟨hend, rfl⟩ := hread
  have hlen : (t.countRegisters c).len = hllDenseSize := by
    rw [hllInitFromBuffer, ByteSlice.len, length_slice hend] at hinit
    exact (Option.ite_none_right_eq_some.1 hinit).1
  obtain ⟨hll', hi, hmap, hreg⟩ := hllInitFromBuffer_spec ⟨(t.countRegisters c).off,
    slice t.mmap (t.countRegisters c).off (t.countRegisters c).len⟩ ((length_slice hend).trans hlen)
  obtain rfl : hll' = hll := Option.some_inj.1 (hi.symm.trans hinit)
  rw [setCount_mapped hmap.notOwned, hreg, splice_slice hend] at h
  rw [← Option.some_inj.1 h]
  exact ⟨rfl, rfl, rfl, hlen⟩

/-- **A state that was loaded for use** comes from a checked file. -/
theorem honasStateLoad_opened {s : HonasState} (h : honasStateLoad (some m) = some (.ok s)) :
    CheckedFile m ∧ s.mmap = m ∧ ∃ opened, honasStateInitCommon m (fun _ => hllInit) = some opened ∧
      s.filters = opened.filters ∧ s.countRegisters = opened.countRegisters ∧
      ∀ c, (opened.countRegisters c).len = hllDenseSize := by
  cases m with
  | nil => cases h
  | cons b bs =>
    unfold honasStateLoad at h
    dsimp only at h
    split_ifs at h with hversion hheader
    · cases h
    · cases h
    obtain ⟨size, hsize, h⟩ := Option.bind_eq_some_iff.1 h
    split_ifs at h with hlt
    · cases h
    obtain ⟨opened, hinit, h⟩ := Option.bind_eq_some_iff.1 h
    obtain ⟨s₁, h₁, h⟩ := Option.bind_eq_some_iff.1 h
    obtain ⟨s₂, h₂, h⟩ := Option.bind_eq_some_iff.1 h
    obtain rfl := Except.ok.inj (Option.some.inj h)
    obtain ⟨hm₁, hf₁, hr₁, hlen₁⟩ := initCount_eq_some h₁
    obtain ⟨hm₂, hf₂, hr₂, hlen₂⟩ := initCount_eq_some h₂
    rw [hr₁] at hlen₂
    have hmmap : opened.mmap = b :: bs := by
      obtain ⟨-, -, -, nr, -, rfl⟩ := honasStateInitCommon_eq_some_iff.1 hinit
      rfl
    refine ⟨?_, hm₂.trans (hm₁.trans hmmap), opened, hinit, hf₂.trans hf₁, hr₂.trans hr₁, fun c => ?_⟩
    · push Not at hversion hheader
      obtain ⟨h1, h2, h3⟩ := hversion
      obtain ⟨h4, h5, h6, h7, h8, h9, h10⟩ := hheader
      have hdescribed : headerFileSize (b :: bs) = some (u32 (describedSize (b :: bs))) :=
        if_pos ⟨Nat.pos_of_ne_zero h5, Nat.pos_of_ne_zero h6, h7, h4⟩
      obtain rfl := Option.some.inj (hdescribed.symm.trans hsize)
      exact ⟨h1, h2, h3, h4, Nat.pos_of_ne_zero h5, Nat.pos_of_ne_zero h6, h7,
        Nat.pos_of_ne_zero h8, h9, h10, not_lt.1 hlt⟩
    · cases c with
      | client => exact hlen₁
      | hostName => exact hlen₂

/-- A state that was loaded for use is that of the handle. -/
theorem honasStateLoad_handle {s : HonasState} (h : honasStateLoad (some m) = some (.ok s)) :
    ∃ state, honasStateLoadHandle zeroHandle (some m) = some (0, state) ∧
      state.filters = some s.filters ∧ ∀ c, state.countRegisters c = some (s.countRegisters c) := by
  obtain ⟨hchecked, -, opened, hinit, hfilters, hregisters, hlen⟩ := honasStateLoad_opened h
  have hload := hchecked.load
  rw [hinit, Option.bind_some, if_pos ⟨hlen .client, hlen .hostName⟩] at hload
  refine ⟨_, hload, ?_, fun c => ?_⟩
  · rw [hfilters]
    rfl
  · rw [hregisters]
    rfl

/-- **A file that is not checked** is refused, with another result than -1. -/
theorem load_refused (hne : m ≠ []) (h : ¬ CheckedFile m) :
    ∃ code, honasStateLoadHandle zeroHandle (some m) = some (code, zeroHandle) ∧
      (code = 1 ∨ code = 2) := by
  cases m with
  | nil => exact absurd rfl hne
  | cons b bs =>
    rw [honasStateLoadHandle.eq_def, if_neg zeroHandle_isZero]
    dsimp only
    split_ifs with hversion hheader
    · exact ⟨1, rfl, Or.inl rfl⟩
    · exact ⟨2, rfl, Or.inr rfl⟩
    · push Not at hversion hheader
      obtain ⟨h1, h2, h3⟩ := hversion
      obtain ⟨h4, h5, h6, h7, h8, h9, h10⟩ := hheader
      have hsize : headerFileSize (b :: bs) = some (u32 (describedSize (b :: bs))) :=
        if_pos ⟨Nat.pos_of_ne_zero h5, Nat.pos_of_ne_zero h6, h7, h4⟩
      have hlt : (b :: bs).length < u32 (describedSize (b :: bs)) := by
        by_contra hle
        exact h ⟨h1, h2, h3, h4, Nat.pos_of_ne_zero h5, Nat.pos_of_ne_zero h6, h7,
          Nat.pos_of_ne_zero h8, h9, h10, not_lt.1 hle⟩
      rw [hsize, Option.bind_eq_bind, Option.bind_some, if_pos hlt]
      exact ⟨2, rfl, Or.inr rfl⟩

/-- The programs go on with a handle that was refused. -/
theorem not_loadsWell_of_not_checked (hne : m ≠ []) (h : ¬ CheckedFile m) : ¬ LoadsWell m := by
  obtain ⟨code, hload, hcode⟩ := load_refused hne h
  rintro ⟨code', state, hload', -, huse⟩
  rw [hload] at hload'
  cases hload'
  have hsearch := (huse (by omega)).2.1
  rw [honasSearchMain, if_pos (by dsimp only; omega)] at hsearch
  cases hsearch

theorem SoundFile.loadsWell (h : SoundFile m) : LoadsWell m := by
  have hn : headerGet m .numberOfFilters < 2 ^ 32 :=
    headerGet_lt (Nat.le_trans (Nat.le_add_right _ _) h.header) .numberOfFilters
  have hnr := numberOfCombinations_eq h.perUser_le hn
  have hlen : sizeofHeader ≤ m.length := Nat.le_trans (Nat.le_add_right _ _) h.header
  have hinit := (@honasStateInitCommon_eq_some_iff m (fun _ => hllInit) _).2
    ⟨hlen, ⟨_, h.headerFileSize_eq, h.size⟩, h.filterEnd, _, hnr, rfl⟩
  have hload := h.load
  rw [hinit, Option.bind_some, if_pos ⟨h.clientHll, h.hostNameHll⟩] at hload
  refine ⟨0, _, hload, fun _ => ?_, fun h0 => absurd rfl h0⟩
  refine ⟨rfl, rfl, ⟨rfl, hlen⟩, ⟨_, rfl, ?_, fun r hr => ?_⟩, fun c => ⟨_, rfl, ?_⟩,
    ⟨_, rfl, h.header⟩, h.perUser, h.perUser_le⟩
  · rw [List.length_map, List.length_range]
  · obtain ⟨i, hi, rfl⟩ := List.mem_map.1 hr
    exact ⟨rfl, h.filterEnd i (List.mem_range.1 hi)⟩
  · have hend := h.hostNameEnd
    cases c with
    | client =>
      refine ⟨h.clientHll, ?_⟩
      dsimp only
      rw [h.clientHll]
      omega
    | hostName =>
      refine ⟨h.hostNameHll, ?_⟩
      dsimp only
      rw [h.clientHll, h.hostNameHll]
      exact hend

/-- **Loading goes well** exactly if the file is empty or a sound state file. -/
theorem loadsWell_iff (m : List Byte) : LoadsWell m ↔ m = [] ∨ SoundFile m := by
  by_cases hne : m = []
  · subst hne
    refine iff_of_true ⟨-1, zeroHandle, rfl, fun h => absurd h (by decide), fun _ => ?_⟩ (Or.inl rfl)
    refine ⟨⟨rfl, rfl, rfl, rfl⟩, rfl, rfl, fun other => ⟨rfl, ?_⟩⟩
    rw [honasCombineMain, if_pos (show (-1, zeroHandle).1 = -1 from rfl), ite_self]
  by_cases hchecked : CheckedFile m
  swap
  · refine iff_of_false (not_loadsWell_of_not_checked hne hchecked) ?_
    rintro (h | h)
    · exact hne h
    · exact hchecked h.toCheckedFile
  constructor
  · rintro ⟨code, state, hload, hok, -⟩
    rw [hchecked.load] at hload
    obtain ⟨opened, hinit, hload⟩ := Option.bind_eq_some_iff.1 hload
    split_ifs at hload with hlens
    cases hload
    obtain ⟨hlen, -, hends, nr, -, rfl⟩ := honasStateInitCommon_eq_some_iff.1 hinit
    have hinside := hok rfl
    obtain ⟨off, hoff, hbits⟩ := hinside.filterBitsSet
    cases hoff
    obtain ⟨r, hr, hrlen, hrend⟩ := hinside.counts .hostName
    cases hr
    refine Or.inr ⟨hchecked, hbits, hends, ?_, hinside.perUser.1, hinside.perUser.2⟩
    dsimp only at hrlen hrend
    rwa [hchecked.clientHll, hrlen] at hrend
  · rintro (h | h)
    · exact absurd h hne
    · exact h.loadsWell

/-- **If the described size does not wrap**, a checked file is sound if the numbers of
    bits set are inside of it, and a user has between one filter and all of them. -/
theorem SoundFile.of_size (h : CheckedFile m) (hsize : describedSize m < 2 ^ 32)
    (hheader : sizeofHeader + 4 * headerGet m .numberOfFilters ≤ m.length)
    (hu : 1 ≤ headerGet m .numberOfFiltersPerUser)
    (hle : headerGet m .numberOfFiltersPerUser ≤ headerGet m .numberOfFilters) : SoundFile m := by
  have hlen := h.size
  rw [u32, Nat.mod_eq_of_lt hsize] at hlen
  rw [describedSize, h.clientHll, h.hostNameHll] at hsize hlen
  refine ⟨h, hheader, fun i hi => ?_, ?_, hu, hle⟩
  · have h1 := Nat.mul_le_mul_right (headerGet m .paddingAfterFilters) (Nat.succ_le_of_lt hi)
    have h2 := Nat.mul_le_mul_right (headerGet m .numberOfBitsPerFilter >>> 3) (Nat.succ_le_of_lt hi)
    rw [Nat.succ_mul] at h1 h2
    rw [filterBegin, u32, Nat.mod_eq_of_lt (by omega)]
    omega
  · have hclient : (headerGet m .numberOfBitsPerFilter >>> 3 + headerGet m .paddingAfterFilters) *
        headerGet m .numberOfFilters =
        headerGet m .numberOfFilters * (headerGet m .numberOfBitsPerFilter >>> 3) +
          headerGet m .numberOfFilters * headerGet m .paddingAfterFilters := by ring
    rw [clientBegin, u32, hclient, Nat.mod_eq_of_lt (by omega)]
    omega

end

/-- A file of one byte is refused, and `honas-search` searches in it. -/
theorem not_loadsWell_oneByte : ¬ LoadsWell [0] ∧
    honasStateLoadHandle zeroHandle (some [0]) = some (1, zeroHandle) ∧
    honasSearchMain (1, zeroHandle) = some zeroHandle := by
  have hload : honasStateLoadHandle zeroHandle (some [0]) = some (1, zeroHandle) := rfl
  refine ⟨fun h => ?_, hload, rfl⟩
  obtain ⟨code, state, hload', -, huse⟩ := h
  rw [hload] at hload'
  cases hload'
  cases (huse (by decide)).2.1

end Honas

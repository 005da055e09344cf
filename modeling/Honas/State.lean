/-
  The honas state (`include/honas_state.h`, `src/honas_state.c`).

  The state file is one block of memory, `mmap`: the packed header, the counts
  of the bits set in each filter, the Bloom filters, and the registers of the
  two HyperLogLog counters.  Header fields are read and written in that memory
  as little-endian numbers, and a filter is a region of it.  The registers of a
  counter are on the heap (then the counter owns them) or, after the state was
  loaded or persisted, in the memory of the state file.

  Address arithmetic is in `uint32_t` where it is in the source (`u32`).  The
  mapping is page-aligned, so addresses are offsets from its start.  A function
  returns `none` where the program stops: a failed assertion, `log_die`, a
  division by zero or an access outside of the memory.  SHA-256 is a parameter.

  This file holds the definitions, in the order of the source.
-/
import Honas.Bitset
import Honas.Bloom
import Honas.Combinations
import Honas.HostName
import Honas.HyperloglogSpec

namespace Honas

open Bits

/-! ## The header -/

/-- The fields of `struct honas_state_file_header`. -/
inductive HeaderField where
  | fileMagic | majorVersion | minorVersion
  | firstFilterOffset | paddingAfterFilters | numberOfFilters | numberOfBitsPerFilter
  | numberOfHashes | numberOfFiltersPerUser | flattenThreshold
  | clientHllSize | paddingAfterClientHll | hostNameHllSize | paddingAfterHostNameHll
  | periodBegin | periodEnd | firstRequest | lastRequest | numberOfRequests
  | estimatedNumberOfClients | estimatedNumberOfHostNames
deriving DecidableEq

namespace HeaderField

/-- The size of a field. -/
def width : HeaderField → ℕ
  | fileMagic | periodBegin | periodEnd | firstRequest | lastRequest | numberOfRequests => 8
  | _ => 4

/-- The offset of a field; the structure is packed. -/
def offset : HeaderField → ℕ
  | fileMagic => 0
  | majorVersion => 8
  | minorVersion => 12
  | firstFilterOffset => 16
  | paddingAfterFilters => 20
  | numberOfFilters => 24
  | numberOfBitsPerFilter => 28
  | numberOfHashes => 32
  | numberOfFiltersPerUser => 36
  | flattenThreshold => 40
  | clientHllSize => 44
  | paddingAfterClientHll => 48
  | hostNameHllSize => 52
  | paddingAfterHostNameHll => 56
  | periodBegin => 60
  | periodEnd => 68
  | firstRequest => 76
  | lastRequest => 84
  | numberOfRequests => 92
  | estimatedNumberOfClients => 100
  | estimatedNumberOfHostNames => 104

end HeaderField

/-- `sizeof(struct honas_state_file_header)`. -/
def sizeofHeader : ℕ := 108

/-- `HONAS_STATE_FILE_MAGIC`, `DNSBLOOM`, and the current version. -/
def honasStateFileMagic : ℕ := ofLE [0x44, 0x4e, 0x53, 0x42, 0x4c, 0x4f, 0x4f, 0x4d]
def currentHonasStateMajorVersion : ℕ := 1
def currentHonasStateMinorVersion : ℕ := 0

/-- Read a header field. -/
def headerGet (mmap : List Byte) (field : HeaderField) : ℕ :=
  ofLE (slice mmap field.offset field.width)

/-- Write a header field. -/
def headerSet (mmap : List Byte) (field : HeaderField) (value : ℕ) : List Byte :=
  splice mmap field.offset (toLE field.width value)

/-! ## The state -/

/-- A slice of the memory of the state file. -/
structure Region where
  off : ℕ
  len : ℕ
deriving DecidableEq

/-- The bytes of a region. -/
def readRegion (mmap : List Byte) (region : Region) : Option ByteSlice :=
  if region.off + region.len ≤ mmap.length then
    some ⟨region.off, slice mmap region.off region.len⟩
  else none

/-- Store the bytes of a region. -/
def writeRegion (mmap : List Byte) (region : ByteSlice) : List Byte :=
  splice mmap region.addr region.bytes

/-- `client_count` and `host_name_count`. -/
inductive Counter where
  | client
  | hostName
deriving DecidableEq

/-- `honas_state_t`.  The registers of a counter that does not own them are
    those in the memory of the state file. -/
structure HonasState where
  mmap : List Byte
  filters : List Region
  nrFiltersPerUserCombinations : ℕ
  countRegisters : Counter → Region
  filterBitsSet : ℕ
  counts : Counter → Hll

namespace HonasState

/-- `state->header->field`. -/
def header (state : HonasState) (field : HeaderField) : ℕ := headerGet state.mmap field

/-- `state->header->field = value`. -/
def setHeader (state : HonasState) (field : HeaderField) (value : ℕ) : HonasState :=
  { state with mmap := headerSet state.mmap field value }

/-- A counter with its registers. -/
def count (state : HonasState) (c : Counter) : Option Hll :=
  if (state.counts c).registersOwned then some (state.counts c)
  else do
    let registers ← readRegion state.mmap (state.countRegisters c)
    some { state.counts c with registers }

/-- Store a counter. -/
def setCount (state : HonasState) (c : Counter) (hll : Hll) : HonasState :=
  if hll.registersOwned then { state with counts := Function.update state.counts c hll }
  else { state with
    mmap := writeRegion state.mmap hll.registers
    counts := Function.update state.counts c { hll with registers := ⟨0, []⟩ } }

end HonasState

/-- The parameters of `honas_state_create`. -/
structure StateParams where
  numberOfFilters : BitVec 32
  numberOfBitsPerFilter : BitVec 32
  numberOfHashes : BitVec 32
  numberOfFiltersPerUser : BitVec 32
  flattenThreshold : BitVec 32

/-- `PAGE_SHIFT`. -/
def pageShift : ℕ := 12

/-- The value of a `uint32_t` expression. -/
def u32 (n : ℕ) : ℕ := n % 2 ^ 32

/-- `round_up_to_factor_of_two`. -/
def roundUpToFactorOfTwo (value factorOfTwo : ℕ) : ℕ :=
  ((BitVec.ofNat 64 value + 1#64 <<< factorOfTwo - 1#64) &&&
    ~~~(1#64 <<< factorOfTwo - 1#64)).toNat

/-- `uint64_hash`. -/
def uint64Hash (data : List Byte) : BitVec 64 := byteSliceMurmurHash64A data 0xadc83b19#32

/-- `honas_state_file_size`. -/
def honasStateFileSize (firstFilterOffset paddingAfterFilters numberOfFilters numberOfBitsPerFilter
    clientHllSize paddingAfterClientHll hostNameHllSize paddingAfterHostNameHll : ℕ) : Option ℕ :=
  if numberOfFilters > 0 ∧ numberOfBitsPerFilter > 0 ∧ numberOfBitsPerFilter % 8 = 0 ∧
      firstFilterOffset ≥ sizeofHeader then
    some (u32 (firstFilterOffset
      + numberOfFilters * (numberOfBitsPerFilter >>> 3)
      + numberOfFilters * paddingAfterFilters
      + clientHllSize + paddingAfterClientHll
      + hostNameHllSize + paddingAfterHostNameHll))
  else none

/-- The size that the header of a state describes. -/
def headerFileSize (mmap : List Byte) : Option ℕ :=
  honasStateFileSize (headerGet mmap .firstFilterOffset) (headerGet mmap .paddingAfterFilters)
    (headerGet mmap .numberOfFilters) (headerGet mmap .numberOfBitsPerFilter)
    (headerGet mmap .clientHllSize) (headerGet mmap .paddingAfterClientHll)
    (headerGet mmap .hostNameHllSize) (headerGet mmap .paddingAfterHostNameHll)

/-- Filter `i`, as `honas_state_init_common` places it. -/
def filterRegion (mmap : List Byte) (i : ℕ) : Option Region :=
  let filterBegin := u32 (headerGet mmap .firstFilterOffset
    + i * headerGet mmap .paddingAfterFilters
    + i * (headerGet mmap .numberOfBitsPerFilter >>> 3))
  let len := headerGet mmap .numberOfBitsPerFilter >>> 3
  if filterBegin + len ≤ mmap.length then some ⟨filterBegin, len⟩ else none

/-- `honas_state_init_common`, for the counters that its caller sets up. -/
def honasStateInitCommon (mmap : List Byte) (counts : Counter → Hll) : Option HonasState := do
  if mmap.length < sizeofHeader then none
  let size ← headerFileSize mmap
  if mmap.length < size then none
  let filters ← (List.range (headerGet mmap .numberOfFilters)).mapM (filterRegion mmap)
  let clientCountRegisters : Region :=
    ⟨u32 (((headerGet mmap .numberOfBitsPerFilter >>> 3) + headerGet mmap .paddingAfterFilters) *
      headerGet mmap .numberOfFilters), headerGet mmap .clientHllSize⟩
  let hostNameCountRegisters : Region :=
    ⟨clientCountRegisters.off + headerGet mmap .clientHllSize +
      headerGet mmap .paddingAfterClientHll, headerGet mmap .hostNameHllSize⟩
  let nrFiltersPerUserCombinations ←
    numberOfCombinations (headerGet mmap .numberOfFilters) (headerGet mmap .numberOfFiltersPerUser)
  some {
    mmap, filters, nrFiltersPerUserCombinations, counts
    countRegisters := fun | .client => clientCountRegisters | .hostName => hostNameCountRegisters
    filterBitsSet := sizeofHeader }

/-- The header that `honas_state_create` writes into the zeroed memory. -/
def createHeader (p : StateParams) (firstFilterOffset paddingAfterFilters paddingAfterHll : ℕ) :
    List (HeaderField × ℕ) :=
  [(.fileMagic, honasStateFileMagic),
    (.majorVersion, currentHonasStateMajorVersion),
    (.minorVersion, currentHonasStateMinorVersion),
    (.firstFilterOffset, firstFilterOffset),
    (.paddingAfterFilters, paddingAfterFilters),
    (.numberOfFilters, p.numberOfFilters.toNat),
    (.numberOfBitsPerFilter, p.numberOfBitsPerFilter.toNat),
    (.numberOfHashes, p.numberOfHashes.toNat),
    (.numberOfFiltersPerUser, p.numberOfFiltersPerUser.toNat),
    (.flattenThreshold, p.flattenThreshold.toNat),
    (.clientHllSize, hllDenseSize),
    (.paddingAfterClientHll, paddingAfterHll),
    (.hostNameHllSize, hllDenseSize),
    (.paddingAfterHostNameHll, paddingAfterHll)]

/-- `honas_state_create`: the state, or the error code when the mapping fails,
    as it does for size zero. -/
def honasStateCreate (p : StateParams) : Option (Except ℤ HonasState) := do
  if ¬ (p.numberOfHashes.toNat > 0 ∧ p.numberOfFiltersPerUser.toNat > 0) then none
  let bytesPerFilter := p.numberOfBitsPerFilter.toNat >>> 3
  let firstFilterOffset :=
    u32 (roundUpToFactorOfTwo (sizeofHeader + 4 * p.numberOfFilters.toNat) pageShift)
  let paddingAfterFilters := u32 (roundUpToFactorOfTwo bytesPerFilter pageShift - bytesPerFilter)
  let paddingAfterHll := u32 (roundUpToFactorOfTwo hllDenseSize pageShift - hllDenseSize)
  let size ← honasStateFileSize firstFilterOffset paddingAfterFilters p.numberOfFilters.toNat
    p.numberOfBitsPerFilter.toNat hllDenseSize paddingAfterHll hllDenseSize paddingAfterHll
  if size = 0 then some (.error (-1))
  else
    let mmap := (createHeader p firstFilterOffset paddingAfterFilters paddingAfterHll).foldl
      (fun mmap (field, value) => headerSet mmap field value) (List.replicate size 0)
    let state ← honasStateInitCommon mmap fun _ => hllInit
    some (.ok state)

/-- `honas_state_load` of a file with the given contents (`none` when it cannot
    be opened): the state, or the error code.  The file is mapped, so header
    fields behind its end read as zero. -/
def honasStateLoad (file : Option (List Byte)) : Option (Except ℤ HonasState) :=
  match file with
  | none | some [] => some (.error (-1))
  | some mmap =>
    if mmap.length < 44 ∨ headerGet mmap .fileMagic ≠ honasStateFileMagic ∨
        headerGet mmap .majorVersion ≠ currentHonasStateMajorVersion then some (.error 1)
    else if headerGet mmap .firstFilterOffset < sizeofHeader ∨
        headerGet mmap .numberOfFilters = 0 ∨ headerGet mmap .numberOfBitsPerFilter = 0 ∨
        headerGet mmap .numberOfBitsPerFilter % 8 ≠ 0 ∨ headerGet mmap .numberOfHashes = 0 ∨
        headerGet mmap .clientHllSize ≠ hllDenseSize ∨
        headerGet mmap .hostNameHllSize ≠ hllDenseSize then some (.error 2)
    else do
      let size ← headerFileSize mmap
      if mmap.length < size then some (.error 2)
      else
        let state ← honasStateInitCommon mmap fun _ => hllInit
        let initCount (state : HonasState) (c : Counter) : Option HonasState := do
          let registers ← readRegion state.mmap (state.countRegisters c)
          let hll ← hllInitFromBuffer registers
          some (state.setCount c hll)
        let state ← initCount state .client
        let state ← initCount state .hostName
        some (.ok state)

/-! ## Registering a lookup -/

/-- The loop of `filter_index_host_name_hash_transform` over 64-bit words. -/
def transformWords (multiplier : ℕ) : ℕ → List Byte → List Byte
  | 0, _ => []
  | n + 1, src =>
    toLE 8 (ofLE (src.take 8) * multiplier) ++ transformWords multiplier n (src.drop 8)

/-- `filter_index_host_name_hash_transform`. -/
def filterIndexHostNameHashTransform (filterIndex : ℕ) (src : List Byte) : Option (List Byte) :=
  if filterIndex = 0 then some src
  else if src.length % 8 = 0 then
    some (transformWords (u32 (filterIndex * 2 + 1)) (src.length / 8) src)
  else none

/-- `struct in_addr46`, with the addresses as little-endian numbers of their
    bytes. -/
inductive InAddr46 where
  | inet (addr4 : BitVec 32)
  | inet6 (addr6 : BitVec 128)
  | other (af : ℕ)

/-- The client hash used for filter selection and counting the client. -/
def clientHash : InAddr46 → Option (BitVec 64)
  | .inet addr4 => some (uint64Hash (toLE 4 addr4.toNat))
  | .inet6 addr6 => some (uint64Hash (toLE 16 addr6.toNat))
  | .other _ => none

/-- A digest of SHA-256. -/
def Digest : Type := { d : List Byte // d.length = 32 }

/-- `byte_slice_as_uint64_ptr(host_name_hash_slice)[0]`. -/
def Digest.word (d : Digest) : BitVec 64 := BitVec.ofNat 64 (ofLE (d.1.take 8))

/-- The arguments of `honas_state_register_host_name_lookup`. -/
structure Lookup where
  timestamp : BitVec 64
  client : InAddr46
  hostName : List Byte
  entity : Option (List Byte)
  qtype : ℕ

/-- `struct dry_run_counters`, as far as registering a lookup uses it. -/
structure DryRunCounters where
  hourlyGlobal : Hll
  dailyGlobal : Hll
  hourlyTotalQueries : BitVec 64
  dailyTotalQueries : BitVec 64

/-- Count a hash in both dry-run counters. -/
def DryRunCounters.add (dryrun : DryRunCounters) (hash : BitVec 64) : Option DryRunCounters := do
  let (hourlyGlobal, _) ← hllAdd dryrun.hourlyGlobal hash
  let (dailyGlobal, _) ← hllAdd dryrun.dailyGlobal hash
  some { dryrun with hourlyGlobal, dailyGlobal }

/-- Update the total query counters. -/
def DryRunCounters.total (dryrun : DryRunCounters) : DryRunCounters :=
  { dryrun with
    hourlyTotalQueries := dryrun.hourlyTotalQueries + 1
    dailyTotalQueries := dryrun.dailyTotalQueries + 1 }

namespace HonasState

/-- Update the request times and count the request. -/
def countRequest (state : HonasState) (timestamp : BitVec 64) : HonasState :=
  let state :=
    if state.header .lastRequest < timestamp.toNat then
      let state := state.setHeader .lastRequest timestamp.toNat
      if state.header .firstRequest = 0 then state.setHeader .firstRequest timestamp.toNat
      else state
    else state
  state.setHeader .numberOfRequests (state.header .numberOfRequests + 1)

/-- `hllAdd` on one of the counters. -/
def addCount (state : HonasState) (c : Counter) (hash : BitVec 64) : Option HonasState := do
  let hll ← state.count c
  let (hll, _) ← hllAdd hll hash
  some (state.setCount c hll)

/-- Set a hash in one filter. -/
def setInFilter (nrHashes : ℕ) (hash : List Byte) (state : HonasState) (filterIndex : ℕ) :
    Option HonasState := do
  let transformed ← filterIndexHostNameHashTransform filterIndex hash
  let region ← state.filters[filterIndex]?
  let filter ← readRegion state.mmap region
  let filter ← bloomSet filter transformed nrHashes
  some { state with mmap := writeRegion state.mmap filter }

/-- Count a stored string and register it in the filters of the client.  All
    four places of the source do this; they differ in the order of the
    independent updates and in the hash that the dry run counts. -/
def storeName (sha256 : List Byte → Digest) (nrHashes : ℕ) (filterIndexes : List ℕ)
    (acc : HonasState × Option DryRunCounters) (stored : StoredName) :
    Option (HonasState × Option DryRunCounters) := do
  let hash := sha256 stored.name
  let state ← acc.1.addCount .hostName hash.word
  let state ← filterIndexes.foldlM (setInFilter nrHashes hash.1) state
  match acc.2 with
  | some dryrun => do
    let dryrun ← dryrun.add (if stored.whole then uint64Hash stored.name else hash.word)
    some (state, some dryrun)
  | none => some (state, none)

end HonasState

/-- `honas_state_register_host_name_lookup`. -/
def honasStateRegisterHostNameLookup (sha256 : List Byte → Digest) (state : HonasState)
    (lookup : Lookup) (dryrun : Option DryRunCounters) :
    Option (HonasState × Option DryRunCounters) := do
  let state := state.countRequest lookup.timestamp
  let clientHash ← clientHash lookup.client
  let state ← state.addCount .client clientHash
  let nrFilters := state.header .numberOfFilters
  let nrHashes := state.header .numberOfHashes
  let nrFiltersPerUser := state.header .numberOfFiltersPerUser
  if state.nrFiltersPerUserCombinations = 0 then none
  let combination := clientHash.toNat % state.nrFiltersPerUserCombinations
  let filterIndexes ← lookupCombination nrFilters nrFiltersPerUser combination
  let names ← hostNameStrings lookup.hostName lookup.entity lookup.qtype
  let (state, dryrun) ←
    names.foldlM (HonasState.storeName sha256 nrHashes filterIndexes) (state, dryrun)
  some (state, if lookup.qtype ≠ ldnsRrTypePtr then dryrun.map DryRunCounters.total else dryrun)

/-! ## Checking for lookups -/

/-- The loop of `honas_state_check_host_name_lookups` over the filters. -/
def checkFilters (state : HonasState) (nrHashes : ℕ) (hostNameHash : List Byte) :
    List ℕ → ℕ → Option Bitset → Option (ℕ × Option Bitset)
  | [], filterCount, filtersHit => some (filterCount, filtersHit)
  | i :: rest, filterCount, filtersHit => do
    let transformed ← filterIndexHostNameHashTransform i hostNameHash
    let region ← state.filters[i]?
    let filter ← readRegion state.mmap region
    if ← bloomIsSet filter transformed nrHashes then
      match filtersHit with
      | some set => do
        let set ← bitsetSetBit set i
        checkFilters state nrHashes hostNameHash rest (filterCount + 1) (some set)
      | none => checkFilters state nrHashes hostNameHash rest (filterCount + 1) none
    else checkFilters state nrHashes hostNameHash rest filterCount filtersHit

/-- `honas_state_check_host_name_lookups`: the number of filters with a hit,
    and the updated set of these filters. -/
def honasStateCheckHostNameLookups (state : HonasState) (hostNameHash : List Byte)
    (filtersHit : Option Bitset) : Option (ℕ × Option Bitset) :=
  checkFilters state (state.header .numberOfHashes) hostNameHash
    (List.range (state.header .numberOfFilters)) 0 filtersHit

/-! ## Persisting -/

namespace HonasState

/-- Make sure the data of a counter is dense and in the state file. -/
def persistCount (state : HonasState) (c : Counter) : Option HonasState := do
  if (state.counts c).registersOwned then
    let (hll, _) ← hllSparseToDense (state.counts c)
    let registers ← readRegion state.mmap (state.countRegisters c)
    let registers ← byteSliceBitwiseOr registers hll.registers
    let hll ← hllInitFromBuffer registers
    some (state.setCount c hll)
  else some state

/-- Store the estimate of a counter in the header. -/
def estimateCount (estimate : ℚ → ℕ → BitVec 64) (state : HonasState) (c : Counter)
    (field : HeaderField) : Option HonasState := do
  let hll ← state.count c
  let (hll, n) := hllCount estimate hll
  some ((state.setCount c hll).setHeader field n.toNat)

/-- Count the bits set in filter `i`. -/
def countFilterBits (state : HonasState) (i : ℕ) : Option HonasState := do
  let region ← state.filters[i]?
  let filter ← readRegion state.mmap region
  some { state with
    mmap := splice state.mmap (state.filterBitsSet + 4 * i) (toLE 4 (bloomNrBitsSet filter)) }

end HonasState

/-- `honas_state_persist`, blocking: the state, and the file that is written. -/
def honasStatePersist (estimate : ℚ → ℕ → BitVec 64) (state : HonasState) :
    Option (HonasState × List Byte) := do
  let state ← state.persistCount .client
  let state ← state.estimateCount estimate .client .estimatedNumberOfClients
  let state ← state.persistCount .hostName
  let state ← state.estimateCount estimate .hostName .estimatedNumberOfHostNames
  let state ← (List.range (state.header .numberOfFilters)).foldlM HonasState.countFilterBits state
  some (state, state.mmap)

/-! ## Combining -/

/-- Take the bitwise or of filter `i` of the target and the source. -/
def combineFilter (source target : HonasState) (i : ℕ) : Option HonasState := do
  let targetRegion ← target.filters[i]?
  let sourceRegion ← source.filters[i]?
  let targetFilter ← readRegion target.mmap targetRegion
  let sourceFilter ← readRegion source.mmap sourceRegion
  let filter ← byteSliceBitwiseOr targetFilter sourceFilter
  some { target with mmap := writeRegion target.mmap filter }

/-- Merge a counter of the source into the target. -/
def mergeCount (c : Counter) (target source : HonasState) : Option (HonasState × HonasState) := do
  let dst ← target.count c
  let src ← source.count c
  let (dst, src) ← hllMerge dst src
  some (target.setCount c dst, source.setCount c src)

/-- Update the number of requests, the period and the request times. -/
def combineHeader (target source : HonasState) : HonasState :=
  let target := target.setHeader .numberOfRequests
    (target.header .numberOfRequests + source.header .numberOfRequests)
  let target := target.setHeader .periodBegin
    (min (target.header .periodBegin) (source.header .periodBegin))
  let target := target.setHeader .periodEnd
    (max (target.header .periodEnd) (source.header .periodEnd))
  let target := target.setHeader .firstRequest
    (min (target.header .firstRequest) (source.header .firstRequest))
  target.setHeader .lastRequest
    (max (target.header .lastRequest) (source.header .lastRequest))

/-- `honas_state_aggregate_combine`: its result, the target and the source. -/
def honasStateAggregateCombine (target source : HonasState) :
    Option (Bool × HonasState × HonasState) := do
  if target.header .numberOfBitsPerFilter = source.header .numberOfBitsPerFilter ∧
      target.header .numberOfHashes = source.header .numberOfHashes ∧
      target.header .numberOfFilters = source.header .numberOfFilters then
    let target ← (List.range (target.header .numberOfFilters)).foldlM (combineFilter source) target
    let (target, source) ← mergeCount .client target source
    let (target, source) ← mergeCount .hostName target source
    some (true, combineHeader target source, source)
  else some (false, target, source)

end Honas

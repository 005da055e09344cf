/-
  The hash of a host name in a job (`search_spec_string`).

  The value of a host name is copied to a buffer of fixed size, decoded, and
  looked up in the filters whatever its length is.  `HashValue` is what becomes
  of a value before the lookup; what the callback should do with it is
  `HashValueHandled`, and `hash_value_iff` gives the values with which it does.
-/
import Honas.Lib.Hex
import Honas.GroupHits
import Honas.SearchReport
import Honas.StateLoad

namespace Honas

open Bits CString

/-! ## Hexadecimal digits -/

/-- **A digit decodes to its value.** -/
theorem decodeNibble_eq_some_iff {c : Byte} {n : ℕ} : decodeNibble c = some n ↔ HexDigit c n := by
  rw [decodeNibble, HexDigit]
  simp only [BitVec.le_def, BitVec.toNat_ofNat]
  split_ifs with h₁ h₂ h₃
  · rw [Option.some_inj]
    omega
  · rw [Option.some_inj]
    omega
  · rw [Option.some_inj]
    omega
  · constructor
    · nofun
    · omega

/-- Two digits make a byte. -/
theorem shiftLeft_or {high low : ℕ} (h : low < 16) : high <<< 4 ||| low = 16 * high + low := by
  rw [← Nat.shiftLeft_add_eq_or_of_lt (show low < 2 ^ 4 from h), Nat.shiftLeft_eq]
  omega

theorem decodeStringHexLoop_eq_some_iff : ∀ {declen : ℕ} {str bytes : List Byte},
    str.length = declen * 2 →
    (decodeStringHexLoop declen str = some bytes ↔ HexEncodes str bytes)
  | 0, str, bytes, hl => by
    obtain rfl := List.eq_nil_of_length_eq_zero hl
    rw [decodeStringHexLoop, Option.some_inj]
    constructor
    · rintro rfl
      exact .nil
    · rintro ⟨⟩
      rfl
  | declen + 1, [], _, hl => by simp at hl
  | declen + 1, [_], _, hl => by
    rw [List.length_singleton] at hl
    omega
  | declen + 1, c :: c' :: str, bytes, hl => by
    have hl' : str.length = declen * 2 := by
      simp only [List.length_cons] at hl
      omega
    rw [decodeStringHexLoop]
    simp only [Option.bind_eq_bind, Option.bind_eq_some_iff, Option.some_inj]
    constructor
    · rintro ⟨high, hhigh, low, hlow, dec, hdec, rfl⟩
      have hd := decodeNibble_eq_some_iff.1 hlow
      rw [shiftLeft_or hd.lt]
      exact .cons (decodeNibble_eq_some_iff.1 hhigh) hd
        ((decodeStringHexLoop_eq_some_iff hl').1 hdec)
    · intro h
      cases h with
      | @cons _ _ high low _ dec hhigh hlow h =>
        refine ⟨high, decodeNibble_eq_some_iff.2 hhigh, low, decodeNibble_eq_some_iff.2 hlow, dec,
          (decodeStringHexLoop_eq_some_iff hl').2 h, ?_⟩
        rw [shiftLeft_or hlow.lt]

/-- **What a string decodes to** is what it encodes. -/
theorem decodeStringHex_eq_some_iff {str bytes : List Byte} :
    decodeStringHex str (str.length / 2) = some bytes ↔ HexEncodes str bytes := by
  rw [decodeStringHex]
  split_ifs with hodd
  · constructor
    · nofun
    · intro h
      have := h.length
      omega
  · exact decodeStringHexLoop_eq_some_iff (not_not.1 hodd)

/-! ## Before the lookup -/

/-- What becomes of the value of a host name: the buffer is too small for it, it
    is skipped with a warning, or some bytes are looked up. -/
inductive HashValue where
  | overflow
  | skipped
  | lookup (bytes : List Byte)
deriving DecidableEq

/-- `search_spec_string` up to the lookup. -/
def hashValue (stringVal : List Byte) : HashValue :=
  if stringVal.length > sizeofDebugMsg then .overflow
  else
    match decodeStringHex stringVal (stringVal.length / 2) with
    | none => .skipped
    | some bytes => .lookup bytes

section Callback

variable {s : HonasState} {ctx : SearchSpecContext} {v bytes : List Byte}

/-- The callback does nothing else with a value. -/
theorem searchSpecString_eq (hs : ctx.state = .hostNameMapExpectValue) (v : List Byte) :
    searchSpecString s ctx v =
      match hashValue v with
      | .overflow => none
      | .skipped => some { ctx with state := .hostNameMap }
      | .lookup bytes => processHostName s { ctx with state := .hostNameMap } bytes := by
  rw [searchSpecString, hs, hashValue]
  dsimp only
  split_ifs
  · rfl
  · cases decodeStringHex v (v.length / 2) with
    | none => rfl
    | some bytes => rfl

theorem hashValue_overflow (h : v.length > sizeofDebugMsg) : hashValue v = .overflow := if_pos h

theorem hashValue_lookup_iff (h : v.length ≤ sizeofDebugMsg) :
    hashValue v = .lookup bytes ↔ HexEncodes v bytes := by
  rw [hashValue, if_neg (not_lt.2 h), ← decodeStringHex_eq_some_iff]
  cases decodeStringHex v (v.length / 2) with
  | none => exact ⟨nofun, nofun⟩
  | some dec => rw [HashValue.lookup.injEq, Option.some_inj]

theorem hashValue_skipped (h : v.length ≤ sizeofDebugMsg) (hv : ¬ ∃ bytes, HexEncodes v bytes) :
    hashValue v = .skipped := by
  cases hh : hashValue v with
  | overflow =>
    rw [hashValue, if_neg (not_lt.2 h)] at hh
    split at hh <;> cases hh
  | skipped => rfl
  | lookup bytes => exact absurd ⟨bytes, (hashValue_lookup_iff h).1 hh⟩ hv

/-! ## The contexts of a job -/

/-- The context at the start of a job. -/
def searchSpecStart (s : HonasState) (flattenThreshold : ℕ) : SearchSpecContext where
  state := .init
  flattenResults := s.flattens flattenThreshold
  printed := []
  groupId := 0
  groupHasResults := false
  groupAllHostNamesFound := false
  groupFiltersHit := bitsetCreate (s.header .numberOfFilters)
  hostNameFiltersHit := bitsetCreate (s.header .numberOfFilters)
  hostNameKey := []

/-- The context after some events. -/
def SearchSpecReached (text : SearchText) (s : HonasState) (flattenThreshold : ℕ)
    (ctx : SearchSpecContext) : Prop :=
  ∃ events, List.foldlM (searchSpecEvent text s) (searchSpecStart s flattenThreshold) events =
    some ctx

variable {text : SearchText} {flattenThreshold : ℕ} {ctx' : SearchSpecContext}

theorem SearchSpecContext.SetsFit.process (h : ctx.SetsFit (s.header .numberOfFilters))
    (hp : processHostName s ctx bytes = some ctx') : ctx'.SetsFit (s.header .numberOfFilters) := by
  obtain ⟨hits, set, hc, hcase⟩ := processHostName_cases hp
  obtain ⟨hsets, -⟩ := h.check hc
  rcases hcase with ⟨-, rfl⟩ | ⟨-, -, rfl⟩ | ⟨-, -, -, both, hboth, rfl⟩ | ⟨-, -, -, rfl⟩
  · exact ⟨hsets.group, hsets.hostName⟩
  · exact ⟨hsets.group, hsets.hostName⟩
  · exact ⟨(bitsetBitwiseAnd_fits hsets.group hsets.hostName hboth).1, hsets.hostName⟩
  · exact ⟨hsets.group, hsets.hostName⟩

/-- **Every callback keeps the size of the sets.** -/
theorem SearchSpecContext.SetsFit.event (h : ctx.SetsFit (s.header .numberOfFilters))
    {e : JsonEvent} (he : searchSpecEvent text s ctx e = some ctx') :
    ctx'.SetsFit (s.header .numberOfFilters) := by
  cases e with
  | null | boolean | double =>
    rw [← Option.some_inj.1 he]
    exact h
  | string value =>
    obtain ⟨-, -, ⟨-, rfl⟩ | ⟨bytes, -, hp⟩⟩ := searchSpecString_cases he
    · exact ⟨h.group, h.hostName⟩
    · have h' : SearchSpecContext.SetsFit { ctx with state := .hostNameMap }
          (s.header .numberOfFilters) := ⟨h.group, h.hostName⟩
      exact h'.process hp
  | integer value =>
    rw [searchSpecEvent, searchSpecInteger] at he
    split at he
    · rw [← Option.some_inj.1 he]
      exact ⟨h.group, h.hostName⟩
    · cases he
  | mapKey key =>
    rw [searchSpecEvent, searchSpecMapKey] at he
    split at he
    · split_ifs at he <;> rw [← Option.some_inj.1 he] <;> exact ⟨h.group, h.hostName⟩
    · split_ifs at he <;> rw [← Option.some_inj.1 he] <;> exact ⟨h.group, h.hostName⟩
    · rw [← Option.some_inj.1 he]
      exact ⟨h.group, h.hostName⟩
    · cases he
  | startMap =>
    rw [searchSpecEvent, searchSpecStartMap] at he
    split at he
    · rw [← Option.some_inj.1 he]
      exact ⟨h.group, h.hostName⟩
    · rw [← Option.some_inj.1 he]
      exact ⟨h.group, h.hostName⟩
    · rw [← Option.some_inj.1 he]
      exact ⟨h.group, h.hostName⟩
    · cases he
  | endMap =>
    rw [searchSpecEvent, searchSpecEndMap] at he
    split at he
    · rw [← Option.some_inj.1 he]
      exact ⟨h.group, h.hostName⟩
    · dsimp only at he
      split_ifs at he <;> rw [← Option.some_inj.1 he] <;> exact ⟨h.group, h.hostName⟩
    · rw [← Option.some_inj.1 he]
      exact ⟨h.group, h.hostName⟩
    · cases he
  | startArray =>
    rw [searchSpecEvent, searchSpecStartArray] at he
    split at he
    · rw [← Option.some_inj.1 he]
      exact ⟨h.group, h.hostName⟩
    · cases he
  | endArray =>
    rw [searchSpecEvent, searchSpecEndArray] at he
    split at he
    · rw [← Option.some_inj.1 he]
      exact ⟨h.group, h.hostName⟩
    · cases he

/-- The sets of every context of a job have room for all filters. -/
theorem SearchSpecReached.setsFit (h : SearchSpecReached text s flattenThreshold ctx) :
    ctx.SetsFit (s.header .numberOfFilters) := by
  obtain ⟨events, h⟩ := h
  have hfit := bitsetCreate_fits s.numberOfFilters_add_lt
  exact Run.inv_of_run (I := fun ctx => ctx.SetsFit (s.header .numberOfFilters))
    (C := fun _ => True) (fun _ _ _ hs _ he => hs.event he)
    ⟨hfit, hfit⟩ (fun _ _ => trivial) h

/-! ## The lookup -/

variable {m : List Byte}

/-- A hash that can be looked up: not empty, and of whole words; only the first filter is
    checked for the hash as it is. -/
def HonasState.Checkable (s : HonasState) (bytes : List Byte) : Prop :=
  0 < bytes.length ∧ bytes.length % (if s.header .numberOfFilters = 1 then 4 else 8) = 0

instance (s : HonasState) (bytes : List Byte) : Decidable (s.Checkable bytes) :=
  inferInstanceAs (Decidable (_ ∧ _))

/-- **A filter of a loaded state can be checked** for a hash of whole words. -/
theorem checkFilter_isSome_iff (hload : honasStateLoad (some m) = some (.ok s)) {i : ℕ}
    (hi : i < headerGet s.mmap .numberOfFilters) : (∃ hit, s.checkFilter bytes i = some hit) ↔
      0 < bytes.length ∧ bytes.length % (if i = 0 then 4 else 8) = 0 := by
  obtain ⟨hchecked, rfl, opened, hinit, hfilters, -, -⟩ := honasStateLoad_opened hload
  obtain ⟨hhead, -, hends, nr, -, rfl⟩ := honasStateInitCommon_eq_some_iff.1 hinit
  have hbits := headerGet_lt hhead .numberOfBitsPerFilter
  have hpos := hchecked.bits
  have h8 := hchecked.bits8
  set region : Region := ⟨filterBegin s.mmap i, headerGet s.mmap .numberOfBitsPerFilter >>> 3⟩
  have hend : region.off + region.len ≤ s.mmap.length := hends i hi
  have hfilter : s.filters[i]? = some region := by
    rw [hfilters, List.getElem?_map, List.getElem?_range hi]
    rfl
  have hlen : ByteSlice.len ⟨region.off, slice s.mmap region.off region.len⟩ = region.len :=
    length_slice hend
  have hok : BloomOk (ByteSlice.len ⟨region.off, slice s.mmap region.off region.len⟩)
      (s.header .numberOfHashes) := by
    have hlt : headerGet s.mmap .numberOfBitsPerFilter < 2 ^ 32 := hbits
    have hregion : region.len = headerGet s.mmap .numberOfBitsPerFilter / 2 ^ 3 :=
      Nat.shiftRight_eq_div_pow _ _
    rw [hlen, hregion]
    exact ⟨by omega, by omega, hchecked.hashes⟩
  rw [HonasState.checkFilter, hfilter, filterIndexHostNameHashTransform]
  by_cases h0 : i = 0
  · simp only [if_pos h0, Option.bind_eq_bind, Option.bind_some, readRegion_eq hend]
    exact bloomIsSet_isSome_iff hok
  · rw [if_neg h0, if_neg h0]
    by_cases hwords : bytes.length % 8 = 0
    · have hlength : (transformWords (u32 (i * 2 + 1)) (bytes.length / 8) bytes).length =
          bytes.length := by
        rw [transformWords_length]
        omega
      simp only [if_pos hwords, Option.bind_eq_bind, Option.bind_some, readRegion_eq hend]
      rw [bloomIsSet_isSome_iff hok, hlength]
      omega
    · rw [if_neg hwords]
      refine iff_of_false ?_ fun h => hwords h.2
      rintro ⟨_, ⟨⟩⟩

/-- The loop over the filters ends if each of them can be checked. -/
theorem checkFilters_isSome_iff : ∀ {is : List ℕ} (count : ℕ) {hits : Option Bitset},
    (∀ i ∈ is, i < s.header .numberOfFilters) → RoomFor (s.header .numberOfFilters) hits →
    ((∃ r, checkFilters s (s.header .numberOfHashes) bytes is count hits = some r) ↔
      ∀ i ∈ is, ∃ hit, s.checkFilter bytes i = some hit)
  | [], _, _, _, _ => ⟨fun _ _ hi => (List.not_mem_nil hi).elim, fun _ => ⟨_, rfl⟩⟩
  | i :: is, count, hits, hlt, hroom => by
    rw [List.forall_mem_cons] at hlt ⊢
    have hstep : checkFilters s (s.header .numberOfHashes) bytes (i :: is) count hits =
        (s.checkFilter bytes i).bind fun hit =>
          if hit then
            (hits.elim (some none) fun set => (bitsetSetBit set i).map some).bind fun hits =>
              checkFilters s (s.header .numberOfHashes) bytes is (count + 1) hits
          else checkFilters s (s.header .numberOfHashes) bytes is count hits := by
      rw [checkFilters.eq_def, HonasState.checkFilter]
      simp only [Option.bind_eq_bind, Option.bind_assoc]
      cases hits with
      | none => rfl
      | some set => dsimp only [Option.elim]; cases bitsetSetBit set i <;> rfl
    rw [hstep]
    cases hcheck : s.checkFilter bytes i with
    | none =>
      refine iff_of_false ?_ ?_
      · rintro ⟨_, ⟨⟩⟩
      · rintro ⟨⟨_, ⟨⟩⟩, _⟩
    | some hit =>
      rw [and_iff_right ⟨hit, rfl⟩, Option.bind_some]
      cases hit with
      | false => exact checkFilters_isSome_iff count hlt.2 hroom
      | true =>
        obtain ⟨hits', hmark, hroom', -⟩ := markOne hlt.1 hroom
        rw [if_pos rfl]
        cases hits with
        | none => exact checkFilters_isSome_iff (count + 1) hlt.2 hroom
        | some set =>
          obtain ⟨set', hset, rfl⟩ := Option.map_eq_some_iff.1 hmark
          rw [Option.elim_some, hset, Option.map_some, Option.bind_some]
          exact checkFilters_isSome_iff (count + 1) hlt.2 hroom'

/-- All filters can be checked. -/
theorem check_isSome_iff (hload : honasStateLoad (some m) = some (.ok s)) {hits : Option Bitset}
    (hroom : RoomFor (s.header .numberOfFilters) hits) :
    (∃ r, honasStateCheckHostNameLookups s bytes hits = some r) ↔ s.Checkable bytes := by
  obtain ⟨hchecked, hm, -⟩ := honasStateLoad_opened hload
  have hfilters : 0 < s.header .numberOfFilters := by
    rw [HonasState.header, hm]
    exact hchecked.filters
  rw [honasStateCheckHostNameLookups,
    checkFilters_isSome_iff 0 (fun i hi => List.mem_range.1 hi) hroom, HonasState.Checkable]
  constructor
  · intro h
    obtain ⟨hpos, h4⟩ := (checkFilter_isSome_iff hload hfilters).1 (h 0 (List.mem_range.2 hfilters))
    refine ⟨hpos, ?_⟩
    split_ifs with hone
    · exact h4
    · have hlt : 1 < s.header .numberOfFilters := by omega
      exact ((checkFilter_isSome_iff hload hlt).1 (h 1 (List.mem_range.2 hlt))).2
  · rintro ⟨hpos, hwords⟩ i hi
    refine (checkFilter_isSome_iff hload (List.mem_range.1 hi)).2 ⟨hpos, ?_⟩
    have hlt := List.mem_range.1 hi
    split_ifs at hwords ⊢ <;> omega

/-- **The hits of a hash**: the filters that contain it. -/
theorem hits_eq_length (hload : honasStateLoad (some m) = some (.ok s)) (h : s.Checkable bytes) :
    s.hits bytes = some (s.commonFilters [bytes]).length := by
  have hroom : RoomFor (s.header .numberOfFilters) none := fun set hset => nomatch hset
  obtain ⟨⟨count, hits⟩, hc⟩ := (check_isSome_iff hload hroom).2 h
  rw [hits_of_check hc, Option.some_inj]
  rw [honasStateCheckHostNameLookups] at hc
  rw [checkFilters_count hc, Nat.zero_add, HonasState.commonFilters]
  simp

/-- Where the filters that are hit go, there is room for all of them. -/
theorem SearchSpecContext.SetsFit.roomFor {n : ℕ} (h : ctx.SetsFit n) : RoomFor n ctx.filtersHit := by
  rw [SearchSpecContext.filtersHit]
  split_ifs
  · rintro _ ⟨⟩
    have hfit := (bitsetClear_fits h.hostName).1
    exact ⟨hfit.toWf, hfit.numBits.ge⟩
  · rintro _ ⟨⟩
    have hfit := (bitsetClear_fits h.group).1
    exact ⟨hfit.toWf, hfit.numBits.ge⟩
  · rintro _ ⟨⟩

/-- **A hash is looked up** without a failed assertion exactly if all filters can be checked
    for it. -/
theorem processHostName_isSome_iff (hload : honasStateLoad (some m) = some (.ok s))
    (hsets : ctx.SetsFit (s.header .numberOfFilters)) :
    (∃ ctx', processHostName s ctx bytes = some ctx') ↔ s.Checkable bytes := by
  rw [← check_isSome_iff hload hsets.roomFor]
  constructor
  · rintro ⟨ctx', hp⟩
    obtain ⟨hits, set, hc, -⟩ := processHostName_cases hp
    exact ⟨_, hc⟩
  · rintro ⟨⟨hits, set⟩, hc⟩
    obtain ⟨hsets', -⟩ := hsets.check hc
    rw [processHostName, hc]
    simp only [Option.bind_eq_bind, Option.bind_some]
    split_ifs
    · rw [bitsetBitwiseAnd, if_pos (hsets'.group.numBits.trans hsets'.hostName.numBits.symm),
        byteSliceBitwiseAnd_eq (hsets'.group.addr.trans hsets'.hostName.addr.symm)]
      exact ⟨_, rfl⟩
    · exact ⟨_, rfl⟩
    · exact ⟨_, rfl⟩
    · exact ⟨_, rfl⟩

/-- A hash of 32 bytes is looked up. -/
theorem processHostName_loaded (hload : honasStateLoad (some m) = some (.ok s))
    (hsets : ctx.SetsFit (s.header .numberOfFilters)) (hlen : bytes.length = 32) :
    ∃ ctx', processHostName s ctx bytes = some ctx' := by
  refine (processHostName_isSome_iff hload hsets).2 ⟨by omega, ?_⟩
  rw [hlen]
  split_ifs <;> rfl

end Callback

/-! ## The values that are handled -/

/-- **What the callback should do with a value**: 64 digits are looked up as the
    bytes they encode, everything else is skipped, no buffer overflows and no
    assertion fails. -/
structure HashValueHandled (s : HonasState) (ctx : SearchSpecContext) (v : List Byte) : Prop where
  lookup : ∀ bytes, hashValue v = .lookup bytes ↔ HexEncodes v bytes ∧ v.length = 64
  skipped : (¬ ∃ bytes, HexEncodes v bytes ∧ v.length = 64) → hashValue v = .skipped
  safe : hashValue v ≠ .overflow ∧ searchSpecString s ctx v ≠ none

/-- A value that is handled fits the buffer, and is no other number of digits. -/
theorem HashValueHandled.fits {s : HonasState} {ctx : SearchSpecContext} {v : List Byte}
    (h : HashValueHandled s ctx v) :
    v.length ≤ sizeofDebugMsg ∧ ∀ bytes, HexEncodes v bytes → v.length = 64 := by
  have hlen : v.length ≤ sizeofDebugMsg := by
    by_contra hlong
    exact h.safe.1 (hashValue_overflow (not_le.1 hlong))
  exact ⟨hlen, fun bytes hv => ((h.lookup bytes).1 ((hashValue_lookup_iff hlen).2 hv)).2⟩

/-- **The values that are handled**, in every context of a job that waits for
    one. -/
theorem hash_value_iff {m : List Byte} {s : HonasState}
    (hload : honasStateLoad (some m) = some (.ok s)) {text : SearchText} {flattenThreshold : ℕ}
    {ctx : SearchSpecContext} (hctx : SearchSpecReached text s flattenThreshold ctx)
    (hs : ctx.state = .hostNameMapExpectValue) (v : List Byte) :
    HashValueHandled s ctx v ↔
      v.length ≤ sizeofDebugMsg ∧ ∀ bytes, HexEncodes v bytes → v.length = 64 := by
  refine ⟨HashValueHandled.fits, fun ⟨hlen, hv⟩ => ⟨fun bytes => ?_, fun hnone => ?_, ?_⟩⟩
  · rw [hashValue_lookup_iff hlen]
    exact ⟨fun h => ⟨h, hv bytes h⟩, And.left⟩
  · exact hashValue_skipped hlen fun ⟨bytes, h⟩ => hnone ⟨bytes, h, hv bytes h⟩
  · by_cases hsome : ∃ bytes, HexEncodes v bytes
    · obtain ⟨bytes, h⟩ := hsome
      have hlook := (hashValue_lookup_iff hlen).2 h
      have h32 : bytes.length = 32 := by
        have h1 := h.length
        have h2 := hv bytes h
        omega
      have hsets : SearchSpecContext.SetsFit { ctx with state := .hostNameMap }
          (s.header .numberOfFilters) := ⟨hctx.setsFit.group, hctx.setsFit.hostName⟩
      obtain ⟨ctx', hp⟩ := processHostName_loaded hload hsets h32
      rw [searchSpecString_eq hs, hlook]
      dsimp only
      rw [hp]
      exact ⟨nofun, nofun⟩
    · rw [searchSpecString_eq hs, hashValue_skipped hlen hsome]
      exact ⟨nofun, nofun⟩

/-- The events up to the value of a host name. -/
def upToValue : List JsonEvent :=
  [.startMap, .mapKey (ascii "groups"), .startArray, .startMap, .mapKey (ascii "hostnames"),
    .startMap, .mapKey (ascii "a")]

theorem upToValue_reached (text : SearchText) (s : HonasState) (flattenThreshold : ℕ) :
    ∃ ctx, SearchSpecReached text s flattenThreshold ctx ∧ ctx.state = .hostNameMapExpectValue :=
  ⟨_, ⟨upToValue, rfl⟩, rfl⟩

theorem hash_value_zero : ∃ file s ctx, honasStateLoad (some file) = some (.ok s) ∧
    SearchSpecReached noText s 0 ctx ∧ ctx.state = .hostNameMapExpectValue ∧
    HashValueHandled s ctx (List.replicate 64 0x30#8) := by
  obtain ⟨file, s, hload, -⟩ := exists_loaded
  obtain ⟨ctx, hctx, hs⟩ := upToValue_reached noText s 0
  exact ⟨file, s, ctx, hload, hctx, hs, (hash_value_iff hload hctx hs _).2
    ⟨by decide, fun _ _ => rfl⟩⟩

/-- Two digits are looked up, and 1025 bytes overflow the buffer. -/
theorem not_hash_value : ∃ file s ctx, honasStateLoad (some file) = some (.ok s) ∧
    SearchSpecReached noText s 0 ctx ∧ ctx.state = .hostNameMapExpectValue ∧
    ¬ HashValueHandled s ctx (ascii "00") ∧
    ¬ HashValueHandled s ctx (List.replicate 1025 0x30#8) := by
  obtain ⟨file, s, hload, -⟩ := exists_loaded
  obtain ⟨ctx, hctx, hs⟩ := upToValue_reached noText s 0
  refine ⟨file, s, ctx, hload, hctx, hs, fun h => ?_, fun h => ?_⟩
  · have hdigit : HexDigit 0x30#8 0 := .inl ⟨by decide, rfl⟩
    have hv : HexEncodes (ascii "00") [0] := .cons hdigit hdigit .nil
    exact absurd (h.fits.2 [0] hv) (by decide)
  · have := h.fits.1
    rw [List.length_replicate] at this
    exact absurd this (by decide)

end Honas

/-
  The search tool (`src/bin/honas_search.c`).

  `perform_search_job` runs the callbacks of a streaming JSON parser over a
  search job.  Their context is a state machine that prints while it reads: a
  group is opened at its first host name with hits.  The parser delivers the
  events of a document in order, and drops those without a callback (`null`,
  booleans, and numbers that are no integers); a callback that returns 0
  cancels it.

  A callback returns `none` where it returns 0 or where the program stops.  The
  functions of the printer return nothing, so the callbacks only collect their
  calls (`searchJobCalls`); that the program dies in a call whose strings cannot
  be written is part of `performSearchJob`.  The state is only read.  Floating
  point and the decimal texts of the general information are parameters.
-/
import Honas.Lib.Json
import Honas.JsonPrinterString
import Honas.State

namespace Honas

open Bits CString

/-- `search_spec_context.state`. -/
inductive SearchSpecState where
  | init
  | searchSpec
  | searchSpecExpectGroupsArray
  | groupsArray
  | group
  | groupExpectId
  | groupExpectHostNameMap
  | hostNameMap
  | hostNameMapExpectValue
deriving DecidableEq

/-- `struct search_spec_context`; `printed` is what the printer was called with. -/
structure SearchSpecContext where
  state : SearchSpecState
  flattenResults : Bool
  printed : List JsonPrinterCall
  groupId : BitVec 64
  groupHasResults : Bool
  groupAllHostNamesFound : Bool
  groupFiltersHit : Bitset
  hostNameFiltersHit : Bitset
  hostNameKey : List Byte

/-- What the general information takes from elsewhere: the version, and
    functions that compute with floating point or print numbers. -/
structure SearchText where
  version : List Byte
  versionString : ℕ → ℕ → List Byte
  bloomApproxCount : ℕ → ℕ → ℕ → ℕ
  actualFalsePositiveRate : ℕ → ℕ → ℕ → List Byte

/-- The version and the numbers are printed with printable characters. -/
structure SearchText.Plain (text : SearchText) : Prop where
  version : PlainText text.version
  versionString : ∀ major minor, PlainText (text.versionString major minor)
  actualFalsePositiveRate : ∀ bitsSet bits hashes,
    PlainText (text.actualFalsePositiveRate bitsSet bits hashes)

/-! ## Decoding a hash -/

/-- `_decode_nibble`. -/
def decodeNibble (c : Byte) : Option ℕ :=
  if 0x30#8 ≤ c ∧ c ≤ 0x39#8 then some (c.toNat - 0x30)
  else if 0x41#8 ≤ c ∧ c ≤ 0x46#8 then some (c.toNat - 0x41 + 10)
  else if 0x61#8 ≤ c ∧ c ≤ 0x66#8 then some (c.toNat - 0x61 + 10)
  else none

/-- The loop of `decode_string_hex`. -/
def decodeStringHexLoop : ℕ → List Byte → Option (List Byte)
  | 0, _ => some []
  | declen + 1, c :: c' :: str => do
    let high ← decodeNibble c
    let low ← decodeNibble c'
    let dec ← decodeStringHexLoop declen str
    some (BitVec.ofNat 8 (high <<< 4 ||| low) :: dec)
  | _ + 1, _ => none

/-- `decode_string_hex`. -/
def decodeStringHex (str : List Byte) (declen : ℕ) : Option (List Byte) :=
  if str.length ≠ declen * 2 then none else decodeStringHexLoop declen str

/-- The size of `debug_msg`. -/
def sizeofDebugMsg : ℕ := 1024

/-! ## The callbacks -/

namespace SearchSpecContext

/-- Call the printer. -/
def print (ctx : SearchSpecContext) (calls : List JsonPrinterCall) : SearchSpecContext :=
  { ctx with printed := ctx.printed ++ calls }

/-- Where the filters that are hit go, cleared; nowhere when a host name of the
    group was not found. -/
def filtersHit (ctx : SearchSpecContext) : Option Bitset :=
  if ¬ ctx.groupAllHostNamesFound then none
  else if ctx.groupHasResults then some (bitsetClear ctx.hostNameFiltersHit)
  else some (bitsetClear ctx.groupFiltersHit)

/-- Store the filters that are hit where they belong. -/
def setFiltersHit (ctx : SearchSpecContext) : Option Bitset → SearchSpecContext
  | none => ctx
  | some set =>
    if ctx.groupHasResults then { ctx with hostNameFiltersHit := set }
    else { ctx with groupFiltersHit := set }

/-- The number of hits that is reported. -/
def reportedHits (ctx : SearchSpecContext) (honasState : HonasState) (hits : ℕ) : ℕ :=
  if ctx.flattenResults then
    if hits < honasState.header .numberOfFiltersPerUser then 0 else 1
  else hits

end SearchSpecContext

/-- `search_spec_integer`. -/
def searchSpecInteger (ctx : SearchSpecContext) (integerVal : BitVec 64) :
    Option SearchSpecContext :=
  match ctx.state with
  | .groupExpectId => some { ctx with groupId := integerVal, state := .group }
  | _ => none

/-- The host name of the last key, with a decoded hash.  The printer gets the key
    up to its first zero. -/
def processHostName (honasState : HonasState) (ctx : SearchSpecContext) (bytes : List Byte) :
    Option SearchSpecContext := do
  let (hits, filtersHit) ← honasStateCheckHostNameLookups honasState bytes ctx.filtersHit
  let ctx := ctx.setFiltersHit filtersHit
  let hits := ctx.reportedHits honasState hits
  if hits > 0 then
    let ctx ←
      if ¬ ctx.groupHasResults then
        -- the first result of a group starts its output
        some { ctx.print [.objectBegin, .objectKey (ascii "hostnames"), .objectBegin] with
          groupHasResults := true }
      else if ctx.groupAllHostNamesFound then do
        let set ← bitsetBitwiseAnd ctx.groupFiltersHit ctx.hostNameFiltersHit
        some { ctx with groupFiltersHit := set }
      else some ctx
    some (ctx.print [.objectPairUint32 (truncate ctx.hostNameKey) hits])
  else some { ctx with groupAllHostNamesFound := false }

/-- `search_spec_string`. -/
def searchSpecString (honasState : HonasState) (ctx : SearchSpecContext) (stringVal : List Byte) :
    Option SearchSpecContext :=
  match ctx.state with
  | .hostNameMapExpectValue =>
    let ctx := { ctx with state := .hostNameMap }
    -- the string is copied to `debug_msg`
    if stringVal.length > sizeofDebugMsg then none
    else
      match decodeStringHex stringVal (stringVal.length / 2) with
      | none => some ctx
      | some bytes => processHostName honasState ctx bytes
  | _ => none

/-- `search_spec_map_key`. -/
def searchSpecMapKey (ctx : SearchSpecContext) (stringVal : List Byte) : Option SearchSpecContext :=
  match ctx.state with
  | .searchSpec =>
    if stringVal = ascii "groups" then some { ctx with state := .searchSpecExpectGroupsArray }
    else some ctx
  | .group =>
    if stringVal = ascii "id" then some { ctx with state := .groupExpectId }
    else if stringVal = ascii "hostnames" then some { ctx with state := .groupExpectHostNameMap }
    else some ctx
  | .hostNameMap => some { ctx with hostNameKey := stringVal, state := .hostNameMapExpectValue }
  | _ => none

/-- `add_general_information`. -/
def addGeneralInformation (text : SearchText) (honasState : HonasState) : List JsonPrinterCall :=
  let header := honasState.header
  let bitsSet := fun i => ofLE (slice honasState.mmap (honasState.filterBitsSet + 4 * i) 4)
  [.objectPairString (ascii "node_version") text.version,
    .objectPairString (ascii "state_file_version")
      (text.versionString (header .majorVersion) (header .minorVersion)),
    .objectPairUint64 (ascii "period_begin") (header .periodBegin),
    .objectPairUint64 (ascii "first_request") (header .firstRequest),
    .objectPairUint64 (ascii "last_request") (header .lastRequest),
    .objectPairUint64 (ascii "period_end") (header .periodEnd),
    .objectPairUint32 (ascii "estimated_number_of_clients") (header .estimatedNumberOfClients),
    .objectPairUint32 (ascii "estimated_number_of_host_names")
      (header .estimatedNumberOfHostNames),
    .objectPairUint32 (ascii "number_of_requests") (u32 (header .numberOfRequests)),
    .objectPairUint32 (ascii "number_of_filters") (header .numberOfFilters),
    .objectPairUint32 (ascii "number_of_filters_per_user") (header .numberOfFiltersPerUser),
    .objectPairUint32 (ascii "number_of_hashes") (header .numberOfHashes),
    .objectPairUint32 (ascii "number_of_bits_per_filter") (header .numberOfBitsPerFilter),
    .objectPairUint32 (ascii "flatten_threshold") (header .flattenThreshold),
    .objectKey (ascii "filters"), .arrayBegin] ++
  ((List.range (header .numberOfFilters)).flatMap fun i =>
    [.objectBegin, .objectPairUint32 (ascii "number_of_bits_set") (bitsSet i),
      .objectPairUint32 (ascii "estimated_number_of_host_names")
        (text.bloomApproxCount (header .numberOfBitsPerFilter >>> 3) (header .numberOfHashes)
          (bitsSet i)),
      .objectPairString (ascii "actual_false_positive_rate")
        (text.actualFalsePositiveRate (bitsSet i) (header .numberOfBitsPerFilter)
          (header .numberOfHashes)),
      .objectEnd]) ++
  [.arrayEnd]

/-- `search_spec_start_map`. -/
def searchSpecStartMap (text : SearchText) (honasState : HonasState) (ctx : SearchSpecContext) :
    Option SearchSpecContext :=
  match ctx.state with
  | .init =>
    some { ctx.print (.objectBegin :: addGeneralInformation text honasState) with
      state := .searchSpec }
  | .groupsArray =>
    some { ctx with
      groupId := 0, groupHasResults := false, groupAllHostNamesFound := true, state := .group }
  | .groupExpectHostNameMap => some { ctx with state := .hostNameMap }
  | _ => none

/-- `search_spec_end_map`. -/
def searchSpecEndMap (honasState : HonasState) (ctx : SearchSpecContext) :
    Option SearchSpecContext :=
  match ctx.state with
  | .searchSpec => some { ctx.print [.objectEnd] with state := .init }
  | .group =>
    let ctx :=
      if ctx.groupHasResults then
        let hits := ctx.reportedHits honasState (u32 (bitsetPopcount ctx.groupFiltersHit))
        ctx.print [.objectEnd, .objectPairUint64 (ascii "id") ctx.groupId.toNat,
          .objectPairUint32 (ascii "hits_by_all_hostnames")
            (if ctx.groupAllHostNamesFound then hits else 0),
          .objectEnd]
      else ctx
    some { ctx with state := .groupsArray }
  | .hostNameMap => some { ctx with state := .group }
  | _ => none

/-- `search_spec_start_array`. -/
def searchSpecStartArray (ctx : SearchSpecContext) : Option SearchSpecContext :=
  match ctx.state with
  | .searchSpecExpectGroupsArray =>
    some { ctx.print [.objectPairBoolean (ascii "flattened_results") ctx.flattenResults,
        .objectKey (ascii "groups"), .arrayBegin] with state := .groupsArray }
  | _ => none

/-- `search_spec_end_array`. -/
def searchSpecEndArray (ctx : SearchSpecContext) : Option SearchSpecContext :=
  match ctx.state with
  | .groupsArray => some { ctx.print [.arrayEnd] with state := .searchSpec }
  | _ => none

/-- `search_spec_json_callbacks`. -/
def searchSpecEvent (text : SearchText) (honasState : HonasState) (ctx : SearchSpecContext) :
    JsonEvent → Option SearchSpecContext
  | .null | .boolean _ | .double => some ctx
  | .integer v => searchSpecInteger ctx v
  | .string s => searchSpecString honasState ctx s
  | .startMap => searchSpecStartMap text honasState ctx
  | .mapKey s => searchSpecMapKey ctx s
  | .endMap => searchSpecEndMap honasState ctx
  | .startArray => searchSpecStartArray ctx
  | .endArray => searchSpecEndArray ctx

/-- The calls of the printer in `perform_search_job`, for a job that is a complete
    document, when all callbacks return 1. -/
def searchJobCalls (text : SearchText) (honasState : HonasState) (flattenThreshold : ℕ)
    (job : Json) : Option (List JsonPrinterCall) := do
  let ctx : SearchSpecContext := {
    state := .init
    flattenResults := honasState.header .estimatedNumberOfHostNames < flattenThreshold
    printed := []
    groupId := 0
    groupHasResults := false
    groupAllHostNamesFound := false
    groupFiltersHit := bitsetCreate (honasState.header .numberOfFilters)
    hostNameFiltersHit := bitsetCreate (honasState.header .numberOfFilters)
    hostNameKey := [] }
  let ctx ← job.events.foldlM (searchSpecEvent text honasState) ctx
  some ctx.printed

/-- `perform_search_job`: what it prints when it returns.  The program dies in the
    first call with a string that `_json_printer_write_string` cannot write. -/
def performSearchJob (text : SearchText) (honasState : HonasState) (flattenThreshold : ℕ)
    (job : Json) : Option (List JsonPrinterCall) := do
  let calls ← searchJobCalls text honasState flattenThreshold job
  if ∀ c ∈ calls, c.Written then some calls else none

theorem performSearchJob_eq_some_iff {text : SearchText} {honasState : HonasState}
    {flattenThreshold : ℕ} {job : Json} {calls : List JsonPrinterCall} :
    performSearchJob text honasState flattenThreshold job = some calls ↔
      searchJobCalls text honasState flattenThreshold job = some calls ∧ ∀ c ∈ calls, c.Written := by
  rw [performSearchJob, Option.bind_eq_bind, Option.bind_eq_some_iff]
  constructor
  · rintro ⟨calls', hcalls, h⟩
    split_ifs at h with hall
    obtain rfl := Option.some_inj.1 h
    exact ⟨hcalls, hall⟩
  · rintro ⟨hcalls, hall⟩
    exact ⟨calls, hcalls, if_pos hall⟩

end Honas

/-
  The configuration of the collector (`src/honas_gather_config.c`).

  Every item of the configuration is checked alone: a number must be positive, a path
  not empty.  The new state that is made with the configuration asserts more: the bits
  of a filter are whole bytes, the filters of a user are among the filters, and the
  file has less than four gigabytes.

  `accepted_runnable_iff`: an accepted configuration can be run exactly if these three
  conditions hold.
-/
import Honas.StateRegister
import Honas.Utils

namespace Honas

open Bits

/-! ## Values in the configuration -/

/-- `uint32_value`, or `none` when it dies. -/
def uint32Value (value : List Char) : Option (BitVec 32) := myStrtouint32 value

/-- `string_value`. -/
def stringValue (value : List Char) : Option (List Char) := some value

/-! ## The configuration -/

/-- `honas_gather_config_t`. -/
structure HonasGatherConfig where
  bloomfilterPath : Option (List Char)
  subnetActivityPath : Option (List Char)
  periodLength : BitVec 32
  numberOfFilters : BitVec 32
  numberOfBitsPerFilter : BitVec 32
  numberOfHashes : BitVec 32
  numberOfFiltersPerUser : BitVec 32
  flattenThreshold : BitVec 32
deriving DecidableEq

/-- `honas_gather_config_init`. -/
def honasGatherConfigInit : HonasGatherConfig := ⟨none, none, 0, 0, 0, 0, 0, 0⟩

/-- `_config_parse_and_check_value`: the configuration and `parsed`, or `none` when the
    value has no meaning or fails its check. -/
def configParseAndCheckValue {α : Type} (field : String) (parse : List Char → Option α)
    (check : α → Bool) (store : HonasGatherConfig → α → HonasGatherConfig) (keyword : String)
    (value : List Char) (acc : HonasGatherConfig × Bool) : Option (HonasGatherConfig × Bool) :=
  if keyword = field then do
    let v ← parse value
    if check v then some (store acc.1 v, true) else none
  else some acc

/-- `honas_gather_config_parse_item`. -/
def honasGatherConfigParseItem (config : HonasGatherConfig) (keyword : String)
    (value : List Char) : Option (HonasGatherConfig × Bool) := do
  let acc ← configParseAndCheckValue "bloomfilter_path" stringValue (fun v => v.length > 0)
    (fun config v => { config with bloomfilterPath := some v }) keyword value (config, false)
  let acc ← configParseAndCheckValue "subnet_activity_path" stringValue (fun v => v.length > 0)
    (fun config v => { config with subnetActivityPath := some v }) keyword value acc
  let acc ← configParseAndCheckValue "period_length" uint32Value (fun v => v > 0)
    (fun config v => { config with periodLength := v }) keyword value acc
  let acc ← configParseAndCheckValue "number_of_filters" uint32Value (fun v => v > 0)
    (fun config v => { config with numberOfFilters := v }) keyword value acc
  let acc ← configParseAndCheckValue "number_of_bits_per_filter" uint32Value (fun v => v > 0)
    (fun config v => { config with numberOfBitsPerFilter := v }) keyword value acc
  let acc ← configParseAndCheckValue "number_of_hashes" uint32Value (fun v => v > 0)
    (fun config v => { config with numberOfHashes := v }) keyword value acc
  let acc ← configParseAndCheckValue "number_of_filters_per_user" uint32Value (fun v => v > 0)
    (fun config v => { config with numberOfFiltersPerUser := v }) keyword value acc
  configParseAndCheckValue "flatten_threshold" uint32Value (fun v => v > 0)
    (fun config v => { config with flattenThreshold := v }) keyword value acc

/-- `honas_gather_config_finalize`: `none` when it dies. -/
def honasGatherConfigFinalize (config : HonasGatherConfig) : Option HonasGatherConfig :=
  let valid := config.bloomfilterPath ≠ none ∧ config.periodLength ≠ 0 ∧
    config.numberOfFilters ≠ 0 ∧ config.numberOfBitsPerFilter ≠ 0 ∧ config.numberOfHashes ≠ 0 ∧
    config.numberOfFiltersPerUser ≠ 0
  if valid then some config else none

/-- An item of the configuration: its keyword and its value. -/
abbrev ConfigItem : Type := String × List Char

/-- Reading an item: an option that is not known is an error. -/
def readItem (config : HonasGatherConfig) (item : ConfigItem) : Option HonasGatherConfig := do
  let (config, parsed) ← honasGatherConfigParseItem config item.1 item.2
  if parsed then some config else none

/-- The configuration with these items, if it is accepted. -/
def gatherConfig (items : List ConfigItem) : Option HonasGatherConfig := do
  let config ← items.foldlM readItem honasGatherConfigInit
  honasGatherConfigFinalize config

/-- The parameters that `create_state` passes to `honas_state_create`. -/
def HonasGatherConfig.params (config : HonasGatherConfig) : StateParams where
  numberOfFilters := config.numberOfFilters
  numberOfBitsPerFilter := config.numberOfBitsPerFilter
  numberOfHashes := config.numberOfHashes
  numberOfFiltersPerUser := config.numberOfFiltersPerUser
  flattenThreshold := config.flattenThreshold

/-! ## Running it -/

/-- What `lookup_combination` and `bloom_determine_offsets` assert when a client with
    this hash makes a lookup. -/
structure AssertsHold (s : HonasState) (hash : BitVec 64) : Prop where
  subset : 0 < s.header .numberOfFiltersPerUser ∧
    s.header .numberOfFiltersPerUser ≤ s.header .numberOfFilters
  combination : ∃ nr, numberOfCombinations (s.header .numberOfFilters)
      (s.header .numberOfFiltersPerUser) = some nr ∧
    s.nrFiltersPerUserCombinations ≠ 0 ∧ hash.toNat % s.nrFiltersPerUserCombinations < nr
  offsets : ∀ i < s.header .numberOfFilters, ∃ region, s.filters[i]? = some region ∧
    BloomOk region.len (s.header .numberOfHashes)

theorem Shaped.assertsHold {p : StateParams} {s : HonasState} (h : Shaped p s) (hok : p.Ok)
    (hash : BitVec 64) : AssertsHold s hash := by
  have hn : s.header .numberOfFilters = p.n := h.config _ rfl
  have hk : s.header .numberOfHashes = p.hashes := h.config _ rfl
  have hu : s.header .numberOfFiltersPerUser = p.perUser := h.config _ rfl
  refine ⟨?_, ?_, fun i hi => ?_⟩
  · rw [hn, hu]
    exact ⟨hok.perUser, hok.perUser_le⟩
  · have hnr := numberOfCombinations_ne_zero hok.perUser_le hok.n_lt h.combinations
    rw [hn, hu]
    exact ⟨_, h.combinations, hnr.1.ne', Nat.mod_lt _ hnr.1⟩
  · rw [hn] at hi
    rw [hk]
    exact ⟨p.filterRegion i, (h.filter hi).1, hok.bloomOk⟩

/-- **The configuration can be run**: a state is created, and after any valid lookups it
    takes the next one, with the assertions satisfied. -/
def HonasGatherConfig.Runnable (sha256 : List Byte → Digest) (config : HonasGatherConfig) : Prop :=
  ∃ s₀, honasStateCreate config.params = some (.ok s₀) ∧
    ∀ (dryrun : Option ValidDryRun) (ls : List ValidLookup), ∃ s dryrun',
      registerAll sha256 s₀ (dryrun.map ValidDryRun.counters) ls = some (s, dryrun') ∧
        ∀ l : ValidLookup, AssertsHold s l.hash

/-- The required options are set. -/
theorem accepted_pos {items : List ConfigItem} {config : HonasGatherConfig}
    (h : gatherConfig items = some config) : 0 < config.params.n ∧
      0 < config.numberOfBitsPerFilter.toNat ∧ 0 < config.params.hashes ∧
      0 < config.params.perUser := by
  obtain ⟨config', -, h⟩ := Option.bind_eq_some_iff.1 h
  rw [honasGatherConfigFinalize] at h
  split_ifs at h with hvalid
  obtain rfl := Option.some.inj h
  obtain ⟨-, -, hn, hb, hk, hu⟩ := hvalid
  have hpos : ∀ {v : BitVec 32}, v ≠ 0 → 0 < v.toNat := fun hv =>
    Nat.pos_of_ne_zero fun h0 => hv (BitVec.eq_of_toNat_eq h0)
  exact ⟨hpos hn, hpos hb, hpos hk, hpos hu⟩

/-- **Which accepted configurations can be run**: exactly those whose filters are whole
    bytes, with at most as many filters for a user as there are, and a file of less
    than four gigabytes. -/
theorem accepted_runnable_iff (sha256 : List Byte → Digest) {items : List ConfigItem}
    {config : HonasGatherConfig} (h : gatherConfig items = some config) :
    config.Runnable sha256 ↔ config.numberOfBitsPerFilter.toNat % 8 = 0 ∧
      config.numberOfFiltersPerUser.toNat ≤ config.numberOfFilters.toNat ∧
      config.params.size < 2 ^ 32 := by
  obtain ⟨hn, hb, hk, hu⟩ := accepted_pos h
  constructor
  · rintro ⟨s₀, hc, -⟩
    have hok := ok_of_create hc
    exact ⟨hok.bits8, hok.perUser_le, hok.size⟩
  · rintro ⟨hb8, hle, hsize⟩
    have hok : config.params.Ok := ⟨⟨hn, hb, hb8, hsize⟩, hk, hu, hle⟩
    obtain ⟨s₀, hc, h₀, ho₀⟩ := honasStateCreate_represents hok
    refine ⟨s₀, hc, fun dryrun ls => ?_⟩
    obtain ⟨s, dryrun', he, hr, -⟩ := registerAll_represents sha256 hok h₀ ho₀ dryrun ls
    exact ⟨s, _, he, fun l => hr.toShaped.assertsHold hok l.hash⟩

/-- A configuration of one filter with this many bits. -/
def oneFilter (bits : List Char) : List ConfigItem :=
  [("bloomfilter_path", ['.']), ("period_length", ['9']), ("number_of_filters", ['1']),
    ("number_of_bits_per_filter", bits), ("number_of_hashes", ['1']),
    ("number_of_filters_per_user", ['1'])]

/-- A configuration with eight bits for a filter can be run. -/
theorem accepted_runnable_iff_eight : ∃ config, gatherConfig (oneFilter ['8']) = some config ∧
    config.Runnable fun _ => ⟨List.replicate 32 0, rfl⟩ := by
  have hconfig : gatherConfig (oneFilter ['8']) = some ⟨some ['.'], none, 9, 1, 8, 1, 1, 0⟩ := by
    decide
  exact ⟨_, hconfig, (accepted_runnable_iff _ hconfig).2 ⟨by decide, by decide, by decide⟩⟩

/-- Twelve bits for a filter are accepted, but no state is made with them. -/
theorem accepted_notRunnable : ∃ config, gatherConfig (oneFilter ['1', '2']) = some config ∧
    ∀ sha256, ¬ config.Runnable sha256 := by
  have hconfig : gatherConfig (oneFilter ['1', '2']) =
      some ⟨some ['.'], none, 9, 1, 12, 1, 1, 0⟩ := by decide
  refine ⟨_, hconfig, fun sha256 hrun => ?_⟩
  have h8 := ((accepted_runnable_iff sha256 hconfig).1 hrun).1
  exact absurd h8 (by decide)

end Honas

/-
  What the dry run counts.

  A dry run keeps two counters of distinct names and two counters of queries
  beside the state.  They are meant to say what the state stores.  The function
  counts the domain name as a whole under another hash than the one it stores,
  and counts a query only when it stores the labels of its name.

  `dryRun_countsStored_iff`: after lookups on a new state, the dry run agrees
  with the state exactly if the other hashes are covered by those stored and
  conversely, and no query was for a pointer.
-/
import Honas.StateRegister

namespace Honas

open Bits MaxSketch

/-- The hash that the dry run counts for a stored string. -/
def dryRunHash (sha256 : List Byte → Digest) (stored : StoredName) : BitVec 64 :=
  if stored.whole then uint64Hash stored.name else (sha256 stored.name).word

namespace DryRunCounters

/-- The counters as `init_dry_run_dumps` sets them up. -/
def init : DryRunCounters := ⟨hllInit, hllInit, 0, 0⟩

/-- Count several hashes. -/
def addAll (dryrun : DryRunCounters) (hashes : List (BitVec 64)) : Option DryRunCounters :=
  hashes.foldlM add dryrun

end DryRunCounters

/-- What dry-run counters have counted. -/
structure Counted (hashes : List (BitVec 64)) (total : ℕ) (dryrun : DryRunCounters) : Prop where
  hourly : HasRegs dryrun.hourlyGlobal (ofList (hashes.map hllEntry))
  daily : HasRegs dryrun.dailyGlobal (ofList (hashes.map hllEntry))
  hourlyTotal : dryrun.hourlyTotalQueries = BitVec.ofNat 64 total
  dailyTotal : dryrun.dailyTotalQueries = BitVec.ofNat 64 total

namespace Counted

variable {hashes : List (BitVec 64)} {total : ℕ} {d d' : DryRunCounters}

theorem init : Counted [] 0 .init := ⟨hllInit_regs, hllInit_regs, rfl, rfl⟩

theorem ofList_snoc (hashes : List (BitVec 64)) (hash : BitVec 64) :
    ofList ((hashes ++ [hash]).map hllEntry) =
      raise (ofList (hashes.map hllEntry)) (hllEntry hash) := by
  rw [List.map_append, ofList, addAll_append]
  rfl

theorem add (h : Counted hashes total d) {hash : BitVec 64} (ha : d.add hash = some d') :
    Counted (hashes ++ [hash]) total d' := by
  obtain ⟨hourly, h1, hr1, -⟩ := hllAdd_spec h.hourly hash
  obtain ⟨daily, h2, hr2, -⟩ := hllAdd_spec h.daily hash
  rw [DryRunCounters.add, h1] at ha
  simp only [Option.bind_eq_bind, Option.bind_some, h2, Option.some_inj] at ha
  subst ha
  rw [← ofList_snoc] at hr1 hr2
  exact ⟨hr1, hr2, h.hourlyTotal, h.dailyTotal⟩

theorem addAll : ∀ (more : List (BitVec 64)) {hashes : List (BitVec 64)} {d : DryRunCounters},
    Counted hashes total d → d.addAll more = some d' → Counted (hashes ++ more) total d'
  | [], hashes, d, h, ha => by
    rw [DryRunCounters.addAll, List.foldlM_nil] at ha
    rw [List.append_nil, ← Option.some_inj.1 ha]
    exact h
  | hash :: more, hashes, d, h, ha => by
    rw [DryRunCounters.addAll, List.foldlM_cons] at ha
    obtain ⟨d₁, h₁, hrest⟩ := Option.bind_eq_some_iff.1 ha
    have := addAll more (h.add h₁) hrest
    rwa [List.append_assoc] at this

theorem total_succ (h : Counted hashes total d) : Counted hashes (total + 1) d.total := by
  refine ⟨h.hourly, h.daily, ?_, ?_⟩
  · rw [BitVec.ofNat_add, ← h.hourlyTotal]
    rfl
  · rw [BitVec.ofNat_add, ← h.dailyTotal]
    rfl

end Counted

/-! ## What a lookup adds -/

variable {sha256 : List Byte → Digest}

theorem storeName_dryRun {nrHashes : ℕ} {filters : List ℕ} {s s' : HonasState} {d : DryRunCounters}
    {dryrun' : Option DryRunCounters} {stored : StoredName}
    (h : HonasState.storeName sha256 nrHashes filters (s, some d) stored = some (s', dryrun')) :
    ∃ d', d.add (dryRunHash sha256 stored) = some d' ∧ dryrun' = some d' := by
  rw [HonasState.storeName] at h
  obtain ⟨s₁, -, h⟩ := Option.bind_eq_some_iff.1 h
  obtain ⟨s₂, -, h⟩ := Option.bind_eq_some_iff.1 h
  obtain ⟨d', ha, h⟩ := Option.bind_eq_some_iff.1 h
  rw [Option.some_inj, Prod.mk.injEq] at h
  exact ⟨d', ha, h.2.symm⟩

theorem storeNames_dryRun {nrHashes : ℕ} {filters : List ℕ} {s' : HonasState}
    {dryrun' : Option DryRunCounters} : ∀ (names : List StoredName) {s : HonasState}
    {d : DryRunCounters},
    names.foldlM (HonasState.storeName sha256 nrHashes filters) (s, some d) = some (s', dryrun') →
      ∃ d', d.addAll (names.map (dryRunHash sha256)) = some d' ∧ dryrun' = some d'
  | [], s, d, h => by
    rw [List.foldlM_nil] at h
    exact ⟨d, rfl, ((Prod.mk.inj (Option.some_inj.1 h)).2).symm⟩
  | stored :: names, s, d, h => by
    rw [List.foldlM_cons] at h
    obtain ⟨⟨s₁, dryrun₁⟩, h₁, hrest⟩ := Option.bind_eq_some_iff.1 h
    obtain ⟨d₁, ha, rfl⟩ := storeName_dryRun h₁
    obtain ⟨d', hd', hdry⟩ := storeNames_dryRun names hrest
    refine ⟨d', ?_, hdry⟩
    rw [List.map_cons, DryRunCounters.addAll, List.foldlM_cons, ha]
    exact hd'

/-- The hashes that the dry run counts for a lookup. -/
def ValidLookup.dryRunHashes (sha256 : List Byte → Digest) (l : ValidLookup) : List (BitVec 64) :=
  l.names.map (dryRunHash sha256)

/-- The hashes that the state counts for a lookup. -/
def ValidLookup.storedWords (sha256 : List Byte → Digest) (l : ValidLookup) : List (BitVec 64) :=
  l.names.map fun stored => (sha256 stored.name).word

/-- **One lookup** adds its hashes to the dry run, and one query unless it is
    for a pointer. -/
theorem register_dryRun {s s' : HonasState} {l : ValidLookup} {d : DryRunCounters}
    {dryrun' : Option DryRunCounters}
    (h : honasStateRegisterHostNameLookup sha256 s l.toLookup (some d) = some (s', dryrun')) :
    ∃ d', d.addAll (l.dryRunHashes sha256) = some d' ∧
      dryrun' = some (if l.qtype = ldnsRrTypePtr then d' else d'.total) := by
  rw [honasStateRegisterHostNameLookup] at h
  obtain ⟨hash, -, h⟩ := Option.bind_eq_some_iff.1 h
  obtain ⟨s₁, -, h⟩ := Option.bind_eq_some_iff.1 h
  dsimp only at h
  by_cases h0 : s₁.nrFiltersPerUserCombinations = 0
  · rw [if_pos h0] at h
    cases h
  rw [if_neg h0] at h
  obtain ⟨indexes, -, h⟩ := Option.bind_eq_some_iff.1 h
  obtain ⟨names, hn, h⟩ := Option.bind_eq_some_iff.1 h
  have hnames : names = l.names := Option.some_inj.1 (hn.symm.trans l.hostNameStrings_eq)
  subst hnames
  obtain ⟨⟨s₂, dryrun₂⟩, hfold, h⟩ := Option.bind_eq_some_iff.1 h
  obtain ⟨d', ha, rfl⟩ := storeNames_dryRun l.names hfold
  refine ⟨d', ha, ?_⟩
  have hdry := (Prod.mk.inj (Option.some_inj.1 h)).2
  by_cases hq : l.qtype = ldnsRrTypePtr
  · rw [if_neg (not_not.2 (by exact hq))] at hdry
    rw [if_pos hq]
    exact hdry.symm
  · rw [if_pos (by exact hq)] at hdry
    rw [if_neg hq]
    exact hdry.symm

/-- The number of lookups that are not for a pointer. -/
def queries (ls : List ValidLookup) : ℕ := ls.countP fun l => l.qtype ≠ ldnsRrTypePtr

/-- **Several lookups.** -/
theorem registerAll_dryRun {s' : HonasState} {dryrun' : Option DryRunCounters} :
    ∀ (ls : List ValidLookup) {s : HonasState} {d : DryRunCounters} {hashes : List (BitVec 64)}
    {total : ℕ}, Counted hashes total d →
    registerAll sha256 s (some d) ls = some (s', dryrun') →
      ∃ d', dryrun' = some d' ∧
        Counted (hashes ++ ls.flatMap (ValidLookup.dryRunHashes sha256)) (total + queries ls) d'
  | [], s, d, hashes, total, h, hreg => by
    rw [registerAll, List.foldlM_nil] at hreg
    refine ⟨d, ((Prod.mk.inj (Option.some_inj.1 hreg)).2).symm, ?_⟩
    rw [List.flatMap_nil, List.append_nil]
    exact h
  | l :: ls, s, d, hashes, total, h, hreg => by
    rw [registerAll, List.foldlM_cons] at hreg
    obtain ⟨⟨s₁, dryrun₁⟩, h₁, hrest⟩ := Option.bind_eq_some_iff.1 hreg
    obtain ⟨d₁, ha, rfl⟩ := register_dryRun h₁
    have hc := h.addAll _ ha
    rw [List.flatMap_cons, ← List.append_assoc, queries, List.countP_cons]
    by_cases hq : l.qtype = ldnsRrTypePtr
    · rw [if_pos hq] at hrest
      rw [if_neg (by simpa using hq), Nat.add_zero]
      exact registerAll_dryRun ls hc hrest
    · rw [if_neg hq] at hrest
      rw [if_pos (by simpa using hq), Nat.add_comm _ 1, ← Nat.add_assoc]
      exact registerAll_dryRun ls hc.total_succ hrest

/-! ## Whether it agrees with the state -/

/-- The dry run has counted what the state has: the same registers, and as many
    queries as requests. -/
structure CountsStored (s : HonasState) (dryrun : DryRunCounters) : Prop where
  names : ∃ count, s.count .hostName = some count ∧ ∀ r < hllRegisters,
    dryrun.hourlyGlobal.register r = count.register r ∧
      dryrun.dailyGlobal.register r = count.register r
  queries : dryrun.hourlyTotalQueries.toNat = s.header .numberOfRequests ∧
    dryrun.dailyTotalQueries.toNat = s.header .numberOfRequests

/-- One of the hashes belongs to the same register and has a pattern at least
    as long. -/
def Covered (hash : BitVec 64) (hashes : List (BitVec 64)) : Prop :=
  ∃ hash' ∈ hashes, (hllEntry hash').1 = (hllEntry hash).1 ∧ (hllEntry hash).2 ≤ (hllEntry hash').2

/-- The two hashes of every domain name are covered by the hashes of the other
    side, and no query is for a pointer (up to overflow of the counter). -/
structure DryRunCovered (sha256 : List Byte → Digest) (ls : List ValidLookup) : Prop where
  dryRun : ∀ l ∈ ls, ∀ stored ∈ l.names, stored.whole →
    Covered (uint64Hash stored.name) (ls.flatMap (ValidLookup.storedWords sha256))
  stored : ∀ l ∈ ls, ∀ stored ∈ l.names, stored.whole →
    Covered (sha256 stored.name).word (ls.flatMap (ValidLookup.dryRunHashes sha256))
  pointers : (ls.countP fun l => l.qtype = ldnsRrTypePtr) % 2 ^ 64 = 0

theorem covered_of_mem {hash : BitVec 64} {hashes : List (BitVec 64)} (h : hash ∈ hashes) :
    Covered hash hashes := ⟨hash, h, rfl, le_rfl⟩

theorem dominated_iff_covered {a b : List (BitVec 64)} :
    Dominated (a.map hllEntry) (b.map hllEntry) ↔ ∀ hash ∈ a, Covered hash b := by
  simp only [Dominated, Covered, List.mem_map, forall_exists_index, and_imp,
    forall_apply_eq_imp_iff₂, exists_exists_and_eq_and]

/-- Only the hashes of the domain names differ. -/
theorem dryRun_covered_iff {ls : List ValidLookup} :
    (∀ hash ∈ ls.flatMap (ValidLookup.dryRunHashes sha256),
        Covered hash (ls.flatMap (ValidLookup.storedWords sha256))) ↔
      ∀ l ∈ ls, ∀ stored ∈ l.names, stored.whole →
        Covered (uint64Hash stored.name) (ls.flatMap (ValidLookup.storedWords sha256)) := by
  simp only [List.mem_flatMap, ValidLookup.dryRunHashes, List.mem_map]
  constructor
  · intro h l hl stored hs hw
    have := h _ ⟨l, hl, stored, hs, rfl⟩
    rwa [dryRunHash, if_pos hw] at this
  · rintro h _ ⟨l, hl, stored, hs, rfl⟩
    unfold dryRunHash
    split_ifs with hw
    · exact h l hl stored hs hw
    · exact covered_of_mem (List.mem_flatMap.2 ⟨l, hl, List.mem_map_of_mem hs⟩)

theorem stored_covered_iff {ls : List ValidLookup} :
    (∀ hash ∈ ls.flatMap (ValidLookup.storedWords sha256),
        Covered hash (ls.flatMap (ValidLookup.dryRunHashes sha256))) ↔
      ∀ l ∈ ls, ∀ stored ∈ l.names, stored.whole →
        Covered (sha256 stored.name).word (ls.flatMap (ValidLookup.dryRunHashes sha256)) := by
  simp only [List.mem_flatMap, ValidLookup.storedWords, List.mem_map]
  constructor
  · intro h l hl stored hs _
    exact h _ ⟨l, hl, stored, hs, rfl⟩
  · rintro h _ ⟨l, hl, stored, hs, rfl⟩
    by_cases hw : stored.whole
    · exact h l hl stored hs hw
    · refine covered_of_mem (List.mem_flatMap.2 ⟨l, hl, List.mem_map.2 ⟨stored, hs, ?_⟩⟩)
      rw [dryRunHash, if_neg hw]

/-- Two counters agree exactly if the hashes cover each other. -/
theorem registers_eq_iff {a b : List (BitVec 64)} :
    (∀ r < hllRegisters, ofList (a.map hllEntry) r = ofList (b.map hllEntry) r) ↔
      (∀ hash ∈ a, Covered hash b) ∧ ∀ hash ∈ b, Covered hash a := by
  have hpos : ∀ hashes : List (BitVec 64), ∀ e ∈ hashes.map hllEntry, e.2 ≠ ⊥ := by
    intro hashes
    rw [List.forall_mem_map]
    exact fun hash _ => (hllPatLen_pos hash).ne'
  have hout : ∀ hashes : List (BitVec 64), ∀ r, ¬ r < hllRegisters →
      ofList (hashes.map hllEntry) r = ⊥ := by
    intro hashes r hr
    refine ofList_eq_bot ?_
    rw [List.forall_mem_map]
    rintro hash - rfl
    exact hr (hllPatLen_index_lt hash)
  rw [← dominated_iff_covered, ← dominated_iff_covered, ← ofList_eq_iff (hpos a) (hpos b)]
  constructor
  · intro h
    funext r
    by_cases hr : r < hllRegisters
    · exact h r hr
    · rw [hout a r hr, hout b r hr]
  · intro h r _
    rw [h]

/-- What the events of lookups add to the counter of the state. -/
theorem eventsOf_entries (p : StateParams) (ls : List ValidLookup) :
    (eventsOf sha256 p ls).flatMap (fun e => e.entries .hostName) =
      (ls.flatMap (ValidLookup.storedWords sha256)).map hllEntry := by
  rw [eventsOf, List.flatMap_assoc, List.map_flatMap]
  refine List.flatMap_congr fun l _ => ?_
  rw [ValidLookup.events, ValidLookup.storedWords]
  cases l.names with
  | nil => rfl
  | cons stored names =>
    rw [List.map_map, List.map_cons, List.flatMap_cons, List.flatMap_map, List.map_eq_flatMap]
    rfl

/-- The lookups for a pointer are the requests that are not counted. -/
theorem queries_eq_iff (ls : List ValidLookup) :
    queries ls % 2 ^ 64 = ls.length % 2 ^ 64 ↔
      (ls.countP fun l => l.qtype = ldnsRrTypePtr) % 2 ^ 64 = 0 := by
  have hlen : ls.length = (ls.countP fun l => l.qtype = ldnsRrTypePtr) + queries ls := by
    rw [List.length_eq_countP_add_countP (fun l => l.qtype = ldnsRrTypePtr) (l := ls), queries]
    congr 1
    refine List.countP_congr fun l _ => ?_
    simp
  omega

/-- The two sides after lookups on a new state. -/
theorem dryRun_of_lookups {p : StateParams} (hok : p.Ok) (sha256 : List Byte → Digest)
    (ls : List ValidLookup) :
    ∃ s₀ s d, honasStateCreate p = some (.ok s₀) ∧
      registerAll sha256 s₀ (some .init) ls = some (s, some d) ∧
      Counted (ls.flatMap (ValidLookup.dryRunHashes sha256)) (queries ls) d ∧
      (∃ count, s.count .hostName = some count ∧ HasRegs count
        (ofList ((ls.flatMap (ValidLookup.storedWords sha256)).map hllEntry))) ∧
      s.header .numberOfRequests = ls.length % 2 ^ 64 := by
  obtain ⟨s₀, hc, h₀, ho₀⟩ := honasStateCreate_represents hok
  obtain ⟨s, dryrun', he, hr, -⟩ := registerAll_represents sha256 hok h₀ ho₀
    (some ⟨.init, ⟨_, hllInit_regs⟩, ⟨_, hllInit_regs⟩⟩) ls
  obtain ⟨d, hd, hcounted⟩ := registerAll_dryRun ls Counted.init he
  rw [List.nil_append, Nat.zero_add] at hcounted
  rw [hd] at he
  refine ⟨s₀, s, d, hc, he, hcounted, ?_, ?_⟩
  · obtain ⟨count, hcount, hregs⟩ := hr.regs .hostName
    rw [Tally.run_regs, eventsOf_entries] at hregs
    exact ⟨count, hcount, hregs⟩
  · rw [hr.requests]
    exact congrArg (· % 2 ^ 64) (Tally.ofLookups_requests ls)

theorem countsStored_iff {hashes words : List (BitVec 64)} {total requests : ℕ} {s : HonasState}
    {d : DryRunCounters} (hd : Counted hashes total d)
    (hs : ∃ count, s.count .hostName = some count ∧ HasRegs count (ofList (words.map hllEntry)))
    (hn : s.header .numberOfRequests = requests % 2 ^ 64) :
    CountsStored s d ↔ ((∀ hash ∈ hashes, Covered hash words) ∧ ∀ hash ∈ words, Covered hash hashes) ∧
      total % 2 ^ 64 = requests % 2 ^ 64 := by
  obtain ⟨count, hcount, hregs⟩ := hs
  have hhourly : d.hourlyTotalQueries.toNat = total % 2 ^ 64 := by
    rw [hd.hourlyTotal, BitVec.toNat_ofNat]
  have hdaily : d.dailyTotalQueries.toNat = total % 2 ^ 64 := by
    rw [hd.dailyTotal, BitVec.toNat_ofNat]
  rw [← registers_eq_iff]
  constructor
  · rintro ⟨⟨count', hcount', hr⟩, hq⟩
    rw [hcount, Option.some_inj] at hcount'
    subst hcount'
    refine ⟨fun r hlt => ?_, ?_⟩
    · rw [← hd.hourly.register_eq hlt, ← hregs.register_eq hlt]
      exact (hr r hlt).1
    · rw [← hhourly, ← hn]
      exact hq.1
  · rintro ⟨hr, hq⟩
    refine ⟨⟨count, hcount, fun r hlt => ?_⟩, ?_, ?_⟩
    · rw [hd.hourly.register_eq hlt, hd.daily.register_eq hlt, hregs.register_eq hlt]
      exact ⟨hr r hlt, hr r hlt⟩
    · rw [hhourly, hn, hq]
    · rw [hdaily, hn, hq]

/-- **The dry run counts what is stored** exactly if its hashes of the domain
    names and the stored ones cover each other, and no query was for a
    pointer. -/
theorem dryRun_countsStored_iff {p : StateParams} (hok : p.Ok) (sha256 : List Byte → Digest)
    (ls : List ValidLookup) :
    ∃ s₀ s d, honasStateCreate p = some (.ok s₀) ∧
      registerAll sha256 s₀ (some .init) ls = some (s, some d) ∧
      (CountsStored s d ↔ DryRunCovered sha256 ls) := by
  obtain ⟨s₀, s, d, hc, he, hd, hs, hn⟩ := dryRun_of_lookups hok sha256 ls
  refine ⟨s₀, s, d, hc, he, ?_⟩
  rw [countsStored_iff hd hs hn, dryRun_covered_iff, stored_covered_iff, queries_eq_iff]
  constructor
  · rintro ⟨⟨h1, h2⟩, h3⟩
    exact ⟨h1, h2, h3⟩
  · intro h
    exact ⟨⟨h.dryRun, h.stored⟩, h.pointers⟩

/-- A lookup of `a`. -/
def lookupOfA (qtype : ℕ) : ValidLookup where
  timestamp := 1
  client := .inet 0
  client_ok := rfl
  hostName := [0x61#8]
  hostName_ne := by simp
  hostName_le := by simp
  entity := none
  qtype

/-- SHA-256 of `a`, and of the empty string. -/
def sha256OfA (s : List Byte) : Digest :=
  if s = [0x61#8] then
    ⟨[0xca, 0x97, 0x81, 0x12, 0xca, 0x1b, 0xbd, 0xca, 0xfa, 0xc2, 0x31, 0xb3, 0x9a, 0x23, 0xdc, 0x4d,
      0xa7, 0x86, 0xef, 0xf8, 0x14, 0x7c, 0x4e, 0x72, 0xb9, 0x80, 0x77, 0x85, 0xaf, 0xee, 0x48, 0xbb],
      rfl⟩
  else
    ⟨[0xe3, 0xb0, 0xc4, 0x42, 0x98, 0xfc, 0x1c, 0x14, 0x9a, 0xfb, 0xf4, 0xc8, 0x99, 0x6f, 0xb9, 0x24,
      0x27, 0xae, 0x41, 0xe4, 0x64, 0x9b, 0x93, 0x4c, 0xa4, 0x95, 0x99, 0x1b, 0x78, 0x52, 0xb8, 0x55],
      rfl⟩

theorem lookupOfA_names (qtype : ℕ) : (lookupOfA qtype).names =
    ⟨[0x61#8], true⟩ :: if qtype ≠ ldnsRrTypePtr then [⟨[], false⟩] else [] := by
  have h := @hostNameStrings_spec [0x61#8] [0x61#8] none qtype [[0x61#8]] rfl (by decide)
    (by decide) (by decide) rfl
  have hnames : (lookupOfA qtype).names = _ :=
    Option.some_inj.1 ((lookupOfA qtype).hostNameStrings_eq.symm.trans h)
  rw [hnames]
  rfl

theorem lookupOfA_storedWords : [lookupOfA 1].flatMap (ValidLookup.storedWords sha256OfA) =
    [(sha256OfA [0x61#8]).word, (sha256OfA []).word] := by
  have hnames : (lookupOfA 1).names = [⟨[0x61#8], true⟩, ⟨[], false⟩] := lookupOfA_names 1
  rw [List.flatMap_singleton, ValidLookup.storedWords, hnames]
  exact List.map_cons

/-- The hash of the dry run has no register in common with the stored ones. -/
theorem lookupOfA_not_covered :
    ¬ Covered (uint64Hash [0x61#8]) [(sha256OfA [0x61#8]).word, (sha256OfA []).word] := by
  have hname : (hllEntry (sha256OfA [0x61#8]).word).1 ≠ (hllEntry (uint64Hash [0x61#8])).1 := by
    decide +kernel
  have hempty : (hllEntry (sha256OfA []).word).1 ≠ (hllEntry (uint64Hash [0x61#8])).1 := by
    decide +kernel
  generalize uint64Hash [0x61#8] = hash at *
  rintro ⟨hash', hmem, hreg, -⟩
  rw [List.mem_cons, List.mem_singleton] at hmem
  rcases hmem with rfl | rfl
  · exact hname hreg
  · exact hempty hreg

theorem dryRun_countsStored_lookupOfA : ∃ s₀ s d, honasStateCreate smallParams = some (.ok s₀) ∧
    registerAll sha256OfA s₀ (some .init) [lookupOfA 1] = some (s, some d) ∧
    (CountsStored s d ↔ DryRunCovered sha256OfA [lookupOfA 1]) :=
  dryRun_countsStored_iff smallParams_ok sha256OfA [lookupOfA 1]

/-- A lookup of `a` is counted in another register, and a lookup for a pointer
    is not counted at all. -/
theorem not_dryRun_countsStored :
    (∃ s₀ s d, honasStateCreate smallParams = some (.ok s₀) ∧
      registerAll sha256OfA s₀ (some .init) [lookupOfA 1] = some (s, some d) ∧
      ¬ CountsStored s d) ∧
    ∃ s₀ s d, honasStateCreate smallParams = some (.ok s₀) ∧
      registerAll sha256OfA s₀ (some .init) [lookupOfA ldnsRrTypePtr] = some (s, some d) ∧
      d.hourlyTotalQueries.toNat ≠ s.header .numberOfRequests := by
  constructor
  · obtain ⟨s₀, s, d, hc, he, hd, hs, hn⟩ := dryRun_of_lookups smallParams_ok sha256OfA [lookupOfA 1]
    refine ⟨s₀, s, d, hc, he, fun h => ?_⟩
    have hcovered := dryRun_covered_iff.1 ((countsStored_iff hd hs hn).1 h).1.1 (lookupOfA 1)
      (List.mem_singleton_self _) ⟨[0x61#8], true⟩
      (by rw [lookupOfA_names]; exact List.mem_cons_self ..) rfl
    rw [lookupOfA_storedWords] at hcovered
    exact lookupOfA_not_covered hcovered
  · obtain ⟨s₀, s, d, hc, he, hd, -, hn⟩ :=
      dryRun_of_lookups smallParams_ok sha256OfA [lookupOfA ldnsRrTypePtr]
    refine ⟨s₀, s, d, hc, he, ?_⟩
    have hqueries : queries [lookupOfA ldnsRrTypePtr] = 0 := rfl
    rw [hd.hourlyTotal, hn, hqueries, List.length_singleton]
    decide

end Honas

/-
  The filters that contain all host names of a group.

  While it reads a group, the search tool keeps the filters that contain all
  hashes read so far in one bit set, and those of the current hash in another
  (`search_spec_string`).  The sets are used only as long as every host name of
  the group was found.

  `Narrowed` is the invariant: it says what the two flags and the first set
  mean, for any host names in any order.  `Narrowed.hitsByAll_eq` gives the
  count at the end of the group.
-/
import Honas.SearchRun
import Honas.StateCheck

namespace Honas

open Bits CString

/-! ## Filters with a hash -/

/-- What the check does with filter `i`. -/
def HonasState.checkFilter (s : HonasState) (hash : List Byte) (i : ℕ) : Option Bool := do
  let transformed ← filterIndexHostNameHashTransform i hash
  let region ← s.filters[i]?
  let filter ← readRegion s.mmap region
  bloomIsSet filter transformed (s.header .numberOfHashes)

/-- Filter `i` contains a hash. -/
def HonasState.contains (s : HonasState) (hash : List Byte) (i : ℕ) : Bool :=
  (s.checkFilter hash i).getD false

/-- The filters that contain several hashes. -/
def HonasState.commonFilters (s : HonasState) (hashes : List (List Byte)) : List ℕ :=
  (List.range (s.header .numberOfFilters)).filter fun i => hashes.all fun hash => s.contains hash i

theorem HonasState.mem_commonFilters {s : HonasState} {hashes : List (List Byte)} {i : ℕ} :
    i ∈ s.commonFilters hashes ↔
      i < s.header .numberOfFilters ∧ ∀ hash ∈ hashes, s.contains hash i = true := by
  rw [commonFilters, List.mem_filter, List.mem_range, List.all_eq_true]

/-- More hashes are in fewer filters. -/
theorem HonasState.length_commonFilters_le {s : HonasState} {hashes hashes' : List (List Byte)}
    (h : ∀ hash ∈ hashes, hash ∈ hashes') :
    (s.commonFilters hashes').length ≤ (s.commonFilters hashes).length := by
  refine (List.Nodup.subperm (List.nodup_range.filter _) fun i hi => ?_).length_le
  obtain ⟨hlt, hall⟩ := mem_commonFilters.1 hi
  exact mem_commonFilters.2 ⟨hlt, fun hash hm => hall hash (h hash hm)⟩

/-- **The order does not matter.** -/
theorem HonasState.length_commonFilters_congr {s : HonasState} {hashes hashes' : List (List Byte)}
    (h : ∀ hash, hash ∈ hashes ↔ hash ∈ hashes') :
    (s.commonFilters hashes).length = (s.commonFilters hashes').length :=
  le_antisymm (length_commonFilters_le fun hash hm => (h hash).2 hm)
    (length_commonFilters_le fun hash hm => (h hash).1 hm)

/-! ## The check -/

variable {s : HonasState}

theorem checkFilters_cons {hash : List Byte} {i : ℕ} {is : List ℕ} {count : ℕ} {hits : Option Bitset}
    {r : ℕ × Option Bitset}
    (h : checkFilters s (s.header .numberOfHashes) hash (i :: is) count hits = some r) :
    ∃ hits₁, (if s.contains hash i then
          (match hits with
            | some set => (bitsetSetBit set i).map some
            | none => some none)
        else some hits) = some hits₁ ∧
      checkFilters s (s.header .numberOfHashes) hash is
        (count + if s.contains hash i then 1 else 0) hits₁ = some r := by
  rw [checkFilters.eq_def] at h
  simp only [Option.bind_eq_bind, Option.bind_eq_some_iff] at h
  obtain ⟨transformed, ht, region, hr, filter, hf, hit, hh, h⟩ := h
  have hc : s.contains hash i = hit := by
    rw [HonasState.contains, HonasState.checkFilter, ht]
    simp only [Option.bind_eq_bind, Option.bind_some, hr, hf, hh, Option.getD_some]
  rw [hc]
  cases hit with
  | false => exact ⟨hits, rfl, h⟩
  | true =>
    cases hits with
    | none => exact ⟨none, rfl, h⟩
    | some set =>
      simp only [if_true, Option.bind_eq_some_iff] at h
      obtain ⟨set₁, hs₁, h⟩ := h
      refine ⟨some set₁, ?_, h⟩
      rw [if_pos rfl]
      dsimp only
      rw [hs₁]
      rfl

/-- **The filters with a hash are counted.** -/
theorem checkFilters_count {hash : List Byte} : ∀ {is : List ℕ} {count n : ℕ}
    {hits hits' : Option Bitset},
    checkFilters s (s.header .numberOfHashes) hash is count hits = some (n, hits') →
      n = count + (is.filter (s.contains hash)).length
  | [], count, n, hits, hits', h => by
    rw [checkFilters, Option.some_inj, Prod.mk.injEq] at h
    exact h.1.symm
  | i :: is, count, n, hits, hits', h => by
    obtain ⟨hits₁, -, hrest⟩ := checkFilters_cons h
    rw [checkFilters_count hrest, List.filter_cons]
    split_ifs
    · rw [List.length_cons, Nat.add_assoc, Nat.add_comm 1]
    · rw [Nat.add_zero]

/-- **The filters with a hash are marked.** -/
theorem checkFilters_marks {hash : List Byte} {n : ℕ} : ∀ {is : List ℕ} {count m : ℕ}
    {set : Bitset} {hits' : Option Bitset}, set.Fits n → (∀ i ∈ is, i < n) →
    checkFilters s (s.header .numberOfHashes) hash is count (some set) = some (m, hits') →
      ∃ set', hits' = some set' ∧ set'.Fits n ∧ ∀ j, bitAt set'.repr.bytes j = true ↔
        bitAt set.repr.bytes j = true ∨ j ∈ is ∧ s.contains hash j = true
  | [], count, m, set, hits', hfit, _, h => by
    rw [checkFilters, Option.some_inj, Prod.mk.injEq] at h
    exact ⟨set, h.2.symm, hfit, fun j => by simp⟩
  | i :: is, count, m, set, hits', hfit, hlt, h => by
    rw [List.forall_mem_cons] at hlt
    obtain ⟨hits₁, h₁, hrest⟩ := checkFilters_cons h
    by_cases hc : s.contains hash i = true
    · rw [if_pos hc] at h₁
      obtain ⟨set₁, hs₁, rfl⟩ := Option.map_eq_some_iff.1 h₁
      obtain ⟨hfit₁, hb₁⟩ := bitsetSetBit_fits hfit hlt.1 hs₁
      obtain ⟨set', hset', hfit', hb'⟩ := checkFilters_marks hfit₁ hlt.2 hrest
      refine ⟨set', hset', hfit', fun j => ?_⟩
      rw [hb', hb₁, Bool.or_eq_true, decide_eq_true_iff, List.mem_cons]
      constructor
      · rintro ((h | rfl) | ⟨hj, hcj⟩)
        · exact .inl h
        · exact .inr ⟨.inl rfl, hc⟩
        · exact .inr ⟨.inr hj, hcj⟩
      · rintro (h | ⟨rfl | hj, hcj⟩)
        · exact .inl (.inl h)
        · exact .inl (.inr rfl)
        · exact .inr ⟨hj, hcj⟩
    · rw [if_neg hc, Option.some_inj] at h₁
      subst h₁
      obtain ⟨set', hset', hfit', hb'⟩ := checkFilters_marks hfit hlt.2 hrest
      refine ⟨set', hset', hfit', fun j => ?_⟩
      rw [hb', List.mem_cons]
      constructor
      · rintro (h | ⟨hj, hcj⟩)
        · exact .inl h
        · exact .inr ⟨.inr hj, hcj⟩
      · rintro (h | ⟨rfl | hj, hcj⟩)
        · exact .inl h
        · exact absurd hcj hc
        · exact .inr ⟨hj, hcj⟩

theorem checkFilters_none {s : HonasState} {nrHashes : ℕ} {hash : List Byte} :
    ∀ {is : List ℕ} {count hits : ℕ} {set set' : Option Bitset},
      checkFilters s nrHashes hash is count set = some (hits, set') →
      checkFilters s nrHashes hash is count none = some (hits, none) := by
  intro is
  induction is with
  | nil =>
    intro count hits set set' h
    rw [checkFilters, Option.some_inj, Prod.mk.injEq] at h
    rw [checkFilters, h.1]
  | cons i is ih =>
    intro count hits set set' h
    rw [checkFilters.eq_def] at h ⊢
    simp only [Option.bind_eq_bind, Option.bind_eq_some_iff] at h ⊢
    obtain ⟨transformed, ht, region, hr, filter, hf, hit, hh, h⟩ := h
    refine ⟨transformed, ht, region, hr, filter, hf, hit, hh, ?_⟩
    cases hit with
    | false => exact ih h
    | true =>
      cases set with
      | none => exact ih h
      | some set =>
        simp only [if_true, Option.bind_eq_some_iff] at h ⊢
        obtain ⟨set₁, -, h⟩ := h
        exact ih h

/-- The number of hits that is reported, flattened or not. -/
def HonasState.reportedHits (honasState : HonasState) (flatten : Bool) (hits : ℕ) : ℕ :=
  if flatten then if hits < honasState.header .numberOfFiltersPerUser then 0 else 1 else hits

/-! ## The running intersection -/

/-- The hashes of a group that decode. -/
def JobGroup.hashes (g : JobGroup) : List (List Byte) :=
  g.hostNames.filterMap fun entry => decodeStringHex entry.2 (entry.2.length / 2)

/-- A hash has enough hits to be reported. -/
def HonasState.Found (s : HonasState) (flatten : Bool) (hash : List Byte) : Prop :=
  0 < s.reportedHits flatten (s.commonFilters [hash]).length

theorem reportedHits_mono {flatten : Bool} {a b : ℕ} (h : a ≤ b) :
    s.reportedHits flatten a ≤ s.reportedHits flatten b := by
  unfold HonasState.reportedHits
  split_ifs <;> omega

/-- Both sets of a context have room for `n` filters. -/
structure SearchSpecContext.SetsFit (ctx : SearchSpecContext) (n : ℕ) : Prop where
  group : ctx.groupFiltersHit.Fits n
  hostName : ctx.hostNameFiltersHit.Fits n

/-- **The invariant of the running intersection**, when `hashes` were looked up
    in the group: whether some and whether all were found, and as long as all
    were, the filters that contain them. -/
structure Narrowed (s : HonasState) (flatten : Bool) (hashes : List (List Byte))
    (ctx : SearchSpecContext) : Prop where
  flatten_eq : ctx.flattenResults = flatten
  group : ctx.groupFiltersHit.Fits (s.header .numberOfFilters)
  hostName : ctx.hostNameFiltersHit.Fits (s.header .numberOfFilters)
  hasResults_iff : ctx.groupHasResults = true ↔ ∃ hash ∈ hashes, s.Found flatten hash
  allFound_iff : ctx.groupAllHostNamesFound = true ↔ ∀ hash ∈ hashes, s.Found flatten hash
  bits : ctx.groupAllHostNamesFound = true → ctx.groupHasResults = true →
    ∀ i, bitAt ctx.groupFiltersHit.repr.bytes i = true ↔ i ∈ s.commonFilters hashes

variable {ctx : SearchSpecContext} {flatten : Bool} {hashes : List (List Byte)}

theorem commonFilters_singleton (hash : List Byte) :
    s.commonFilters [hash] = (List.range (s.header .numberOfFilters)).filter (s.contains hash) := by
  rw [HonasState.commonFilters]
  refine List.filter_congr fun i _ => ?_
  rw [List.all_cons, List.all_nil, Bool.and_true]

/-- A check counts the filters with the hash. -/
theorem check_count {bytes : List Byte} {hits : ℕ} {set set' : Option Bitset}
    (h : honasStateCheckHostNameLookups s bytes set = some (hits, set')) :
    hits = (s.commonFilters [bytes]).length := by
  rw [honasStateCheckHostNameLookups] at h
  rw [checkFilters_count h, Nat.zero_add, commonFilters_singleton]

/-- A check of a cleared set leaves the filters with the hash in it. -/
theorem check_cleared {bytes : List Byte} {hits : ℕ} {set : Bitset} {set' : Option Bitset}
    (hfit : set.Fits (s.header .numberOfFilters))
    (h : honasStateCheckHostNameLookups s bytes (some (bitsetClear set)) = some (hits, set')) :
    ∃ marked, set' = some marked ∧ marked.Fits (s.header .numberOfFilters) ∧
      ∀ i, bitAt marked.repr.bytes i = true ↔ i ∈ s.commonFilters [bytes] := by
  rw [honasStateCheckHostNameLookups] at h
  obtain ⟨hclear, hzero⟩ := bitsetClear_fits hfit
  obtain ⟨marked, hm, hfit', hb⟩ := checkFilters_marks hclear (fun i hi => List.mem_range.1 hi) h
  refine ⟨marked, hm, hfit', fun i => ?_⟩
  rw [hb, hzero, commonFilters_singleton, List.mem_filter]
  simp

/-- What the check of one more hash does to the two sets. -/
theorem SearchSpecContext.SetsFit.check (h : ctx.SetsFit (s.header .numberOfFilters))
    {bytes : List Byte} {hits : ℕ} {set : Option Bitset}
    (hc : honasStateCheckHostNameLookups s bytes ctx.filtersHit = some (hits, set)) :
    (ctx.setFiltersHit set).SetsFit (s.header .numberOfFilters) ∧
      (ctx.groupAllHostNamesFound = true → ctx.groupHasResults = true →
        (ctx.setFiltersHit set).groupFiltersHit = ctx.groupFiltersHit ∧
        ∀ i, bitAt (ctx.setFiltersHit set).hostNameFiltersHit.repr.bytes i = true ↔
          i ∈ s.commonFilters [bytes]) ∧
      (ctx.groupAllHostNamesFound = true → ctx.groupHasResults = false →
        ∀ i, bitAt (ctx.setFiltersHit set).groupFiltersHit.repr.bytes i = true ↔
          i ∈ s.commonFilters [bytes]) := by
  by_cases hall : ctx.groupAllHostNamesFound = true
  · by_cases hres : ctx.groupHasResults = true
    · rw [SearchSpecContext.filtersHit, if_neg (not_not.2 hall), if_pos hres] at hc
      obtain ⟨marked, rfl, hfit, hb⟩ := check_cleared h.hostName hc
      rw [SearchSpecContext.setFiltersHit, if_pos hres]
      exact ⟨⟨h.group, hfit⟩, fun _ _ => ⟨rfl, hb⟩, fun _ hf => by rw [hres] at hf; cases hf⟩
    · rw [SearchSpecContext.filtersHit, if_neg (not_not.2 hall), if_neg hres] at hc
      obtain ⟨marked, rfl, hfit, hb⟩ := check_cleared h.group hc
      rw [SearchSpecContext.setFiltersHit, if_neg hres]
      exact ⟨⟨hfit, h.hostName⟩, fun _ ht => absurd ht hres, fun _ _ => hb⟩
  · rw [SearchSpecContext.filtersHit, if_pos hall] at hc
    have hnone : set = none := by
      have h' := checkFilters_none hc
      rw [honasStateCheckHostNameLookups, h', Option.some_inj, Prod.mk.injEq] at hc
      exact hc.2.symm
    subst hnone
    exact ⟨h, fun ht => absurd ht hall, fun ht => absurd ht hall⟩

/-- A hash in no filter: from now on the group has no common filters. -/
theorem Narrowed.missed (h : Narrowed s flatten hashes ctx) {bytes : List Byte}
    {ctx' : SearchSpecContext} (hnot : ¬ s.Found flatten bytes)
    (hflatten : ctx'.flattenResults = ctx.flattenResults)
    (hsets : ctx'.SetsFit (s.header .numberOfFilters))
    (hresults : ctx'.groupHasResults = ctx.groupHasResults)
    (hflag : ctx'.groupAllHostNamesFound = false) :
    Narrowed s flatten (hashes ++ [bytes]) ctx' := by
  refine ⟨hflatten.trans h.flatten_eq, hsets.group, hsets.hostName, ?_, ?_, ?_⟩
  · rw [hresults, h.hasResults_iff]
    simp only [List.mem_append, List.mem_singleton, or_and_right, exists_or, exists_eq_left]
    exact (or_iff_left hnot).symm
  · rw [hflag]
    exact iff_of_false Bool.false_ne_true fun hall => hnot (hall bytes (by simp))
  · rw [hflag]
    exact fun ht => absurd ht Bool.false_ne_true

/-- A hash that is found leaves the flag as it is. -/
theorem Narrowed.found (h : Narrowed s flatten hashes ctx) {bytes : List Byte}
    {ctx' : SearchSpecContext} (hpos : s.Found flatten bytes)
    (hflatten : ctx'.flattenResults = ctx.flattenResults)
    (hsets : ctx'.SetsFit (s.header .numberOfFilters)) (hresults : ctx'.groupHasResults = true)
    (hflag : ctx'.groupAllHostNamesFound = ctx.groupAllHostNamesFound)
    (hbits : ctx.groupAllHostNamesFound = true → ∀ i,
      bitAt ctx'.groupFiltersHit.repr.bytes i = true ↔ i ∈ s.commonFilters (hashes ++ [bytes])) :
    Narrowed s flatten (hashes ++ [bytes]) ctx' := by
  refine ⟨hflatten.trans h.flatten_eq, hsets.group, hsets.hostName, ?_, ?_, fun ht _ => ?_⟩
  · exact iff_of_true hresults ⟨bytes, by simp, hpos⟩
  · rw [hflag, h.allFound_iff, List.forall_mem_append, List.forall_mem_singleton,
      and_iff_left hpos]
  · exact hbits (hflag.symm.trans ht)

/-- **One more hash.** -/
theorem Narrowed.process (h : Narrowed s flatten hashes ctx) {bytes : List Byte}
    {ctx' : SearchSpecContext} (hp : processHostName s ctx bytes = some ctx') :
    Narrowed s flatten (hashes ++ [bytes]) ctx' := by
  obtain ⟨hits, set, hc, hcase⟩ := processHostName_cases hp
  obtain ⟨hsets, hlater, hfirst⟩ := SearchSpecContext.SetsFit.check ⟨h.group, h.hostName⟩ hc
  have hrep : ctx.reportedHits s hits =
      s.reportedHits flatten (s.commonFilters [bytes]).length := by
    rw [SearchSpecContext.reportedHits, HonasState.reportedHits, h.flatten_eq, check_count hc]
  have hcommon : ∀ i, i ∈ s.commonFilters (hashes ++ [bytes]) ↔
      i ∈ s.commonFilters hashes ∧ i ∈ s.commonFilters [bytes] := by
    intro i
    rw [HonasState.mem_commonFilters, HonasState.mem_commonFilters, HonasState.mem_commonFilters,
      List.forall_mem_append]
    exact and_and_left
  rw [hrep] at hcase
  rcases hcase with ⟨hzero, rfl⟩ | ⟨hpos, hres, rfl⟩ | ⟨hpos, hres, hfound, both, hand, rfl⟩ |
    ⟨hpos, hres, hfound, rfl⟩
  · -- nothing found
    have hnot : ¬ s.Found flatten bytes := by rw [HonasState.Found, hzero]; exact lt_irrefl 0
    exact h.missed hnot (setFiltersHit_flattenResults ctx set) ⟨hsets.group, hsets.hostName⟩
      (setFiltersHit_groupHasResults ctx set) rfl
  · -- the first hash that is found; if none was missed it is the only one
    refine h.found hpos (setFiltersHit_flattenResults ctx set) ⟨hsets.group, hsets.hostName⟩ rfl
      (setFiltersHit_groupAllHostNamesFound ctx set) fun hfound i => ?_
    have hnil : hashes = [] := by
      refine List.eq_nil_iff_forall_not_mem.2 fun hash hm => ?_
      have := h.hasResults_iff.2 ⟨hash, hm, h.allFound_iff.1 hfound hash hm⟩
      rw [hres] at this
      cases this
    rw [hnil, List.nil_append]
    exact hfirst hfound hres i
  · -- a later hash narrows the filters
    obtain ⟨hsame, hmarks⟩ := hlater hfound hres
    rw [hsame] at hand
    obtain ⟨hboth, hbits⟩ := bitsetBitwiseAnd_fits h.group hsets.hostName hand
    refine h.found hpos (setFiltersHit_flattenResults ctx set) ⟨hboth, hsets.hostName⟩
      ((setFiltersHit_groupHasResults ctx set).trans hres)
      (setFiltersHit_groupAllHostNamesFound ctx set) fun _ i => ?_
    change bitAt both.repr.bytes i = true ↔ _
    rw [hbits, Bool.and_eq_true, h.bits hfound hres i, hmarks i, hcommon]
  · -- a hash after one that was not found
    refine h.found hpos (setFiltersHit_flattenResults ctx set) ⟨hsets.group, hsets.hostName⟩
      ((setFiltersHit_groupHasResults ctx set).trans hres)
      (setFiltersHit_groupAllHostNamesFound ctx set) fun ht => ?_
    rw [hfound] at ht
    exact absurd ht Bool.false_ne_true

/-- The invariant holds throughout a group. -/
theorem narrowed_invariant : GroupInvariant s fun g ctx => Narrowed s flatten g.hashes ctx := by
  refine ⟨fun _ _ h => ⟨h.flatten_eq, h.group, h.hostName, h.hasResults_iff, h.allFound_iff, h.bits⟩,
    fun _ h => ⟨h.flatten_eq, h.group, h.hostName, h.hasResults_iff, h.allFound_iff, h.bits⟩, ?_⟩
  intro g ctx value ctx' h _ hv
  have hhashes : ({ g with hostNames := g.hostNames ++ [(ctx.hostNameKey, value)] } : JobGroup).hashes =
      g.hashes ++ (decodeStringHex value (value.length / 2)).toList := by
    rw [JobGroup.hashes, JobGroup.hashes, List.filterMap_append]
    cases hd : decodeStringHex value (value.length / 2) with
    | none => rw [List.filterMap_cons_none (by exact hd)]; rfl
    | some bytes => rw [List.filterMap_cons_some (by exact hd)]; rfl
  rw [hhashes]
  obtain ⟨-, -, ⟨hd, rfl⟩ | ⟨bytes, hd, hp⟩⟩ := searchSpecString_cases hv
  · rw [hd, Option.toList_none, List.append_nil]
    exact ⟨h.flatten_eq, h.group, h.hostName, h.hasResults_iff, h.allFound_iff, h.bits⟩
  · rw [hd, Option.toList_some]
    have h' : Narrowed s flatten g.hashes { ctx with state := .hostNameMap } :=
      ⟨h.flatten_eq, h.group, h.hostName, h.hasResults_iff, h.allFound_iff, h.bits⟩
    exact h'.process hp

/-- The count that the end of a group prints. -/
def SearchSpecContext.hitsByAll (ctx : SearchSpecContext) (s : HonasState) : ℕ :=
  if ctx.groupAllHostNamesFound then
    ctx.reportedHits s (u32 (bitsetPopcount ctx.groupFiltersHit))
  else 0

/-- **The count at the end of a group** that is reported is the one of the
    filters that contain all hashes. -/
theorem Narrowed.hitsByAll_eq (h : Narrowed s flatten hashes ctx)
    (hres : ctx.groupHasResults = true) :
    ctx.hitsByAll s = s.reportedHits flatten (s.commonFilters hashes).length := by
  rw [SearchSpecContext.hitsByAll]
  by_cases hfound : ctx.groupAllHostNamesFound = true
  · have hlt : ∀ i ∈ s.commonFilters hashes, i < s.header .numberOfFilters := fun i hi =>
      (HonasState.mem_commonFilters.1 hi).1
    have hnodup : (s.commonFilters hashes).Nodup := List.nodup_range.filter _
    have hcount := bitsetPopcount_eq h.group hnodup hlt (h.bits hfound hres)
    have hle : (s.commonFilters hashes).length ≤ s.header .numberOfFilters :=
      (List.length_filter_le _ _).trans_eq List.length_range
    have hn := @header_lt s .numberOfFilters rfl
    rw [if_pos hfound, hcount, u32, Nat.mod_eq_of_lt (by omega), SearchSpecContext.reportedHits,
      HonasState.reportedHits, h.flatten_eq]
  · -- a hash that was not found bounds the common filters
    obtain ⟨hash, hm, hnot⟩ : ∃ hash ∈ hashes, ¬ s.Found flatten hash := by
      by_contra hno
      push Not at hno
      exact hfound (h.allFound_iff.2 hno)
    have hle : (s.commonFilters hashes).length ≤ (s.commonFilters [hash]).length :=
      HonasState.length_commonFilters_le fun x hx => by rwa [List.mem_singleton.1 hx]
    rw [if_neg hfound]
    exact (Nat.eq_zero_of_le_zero ((reportedHits_mono hle).trans (not_lt.1 hnot))).symm

end Honas

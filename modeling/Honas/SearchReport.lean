/-
  What the search tool reports.

  `GroupResult`, `GroupsResult` and `SearchResult` are the parts of a result,
  which can be read back from the calls that print them.  `JobGroup` is what a
  job asks.  `searchJobCalls_spec` gives the result of every accepted job: it
  follows the callbacks through the document, one lemma for each kind of value,
  with `InGroup` as the invariant inside a group.
-/
import Honas.GroupHits
import Honas.StatePersist

namespace Honas

open Bits CString

/-! ## Results -/

/-- The result of a group. -/
structure GroupResult where
  hostNames : List (List Byte × ℕ)
  id : BitVec 64
  hitsByAllHostNames : ℕ

/-- The result of an array of groups. -/
structure GroupsResult where
  flattenedResults : Bool
  groups : List GroupResult

/-- What a job results in: nothing is printed for a literal. -/
inductive SearchResult where
  | empty
  | object (arrays : List GroupsResult)

/-- The arrays of a result. -/
def SearchResult.arrays : SearchResult → List GroupsResult
  | empty => []
  | object arrays => arrays

/-- All group results of a result. -/
def SearchResult.groups (r : SearchResult) : List GroupResult :=
  r.arrays.flatMap GroupsResult.groups

/-- How a group result is printed. -/
def GroupResult.calls (r : GroupResult) : List JsonPrinterCall :=
  [.objectBegin, .objectKey (ascii "hostnames"), .objectBegin] ++
    ((r.hostNames.flatMap fun h => [.objectPairUint32 h.1 h.2]) ++ [.objectEnd]) ++
    [.objectPairUint64 (ascii "id") r.id.toNat,
      .objectPairUint32 (ascii "hits_by_all_hostnames") r.hitsByAllHostNames, .objectEnd]

/-- How an array of groups is printed. -/
def GroupsResult.calls (r : GroupsResult) : List JsonPrinterCall :=
  [.objectPairBoolean (ascii "flattened_results") r.flattenedResults,
    .objectKey (ascii "groups"), .arrayBegin] ++ (r.groups.flatMap GroupResult.calls ++ [.arrayEnd])

/-- How a result is printed, after the general information. -/
def SearchResult.calls (general : List JsonPrinterCall) : SearchResult → List JsonPrinterCall
  | empty => []
  | object arrays => .objectBegin :: general ++ (arrays.flatMap GroupsResult.calls ++ [.objectEnd])

theorem GroupResult.readable : Readable GroupResult.calls := by
  intro a b rest rest' heq
  obtain ⟨hostNames, id, hits⟩ := a
  obtain ⟨hostNames', id', hits'⟩ := b
  have hpairs : Readable fun h : List Byte × ℕ => [JsonPrinterCall.objectPairUint32 h.1 h.2] := by
    rintro ⟨k, n⟩ ⟨k', n'⟩ r r' h
    simpa [and_assoc] using h
  simp only [GroupResult.calls, List.append_assoc, List.cons_append, List.nil_append, List.cons.injEq,
    true_and] at heq
  obtain ⟨rfl, htail⟩ := hpairs.flatMap (fun h => ⟨_, _, rfl, nofun⟩ : ∀ h : List Byte × ℕ, ∃ c cs,
    [JsonPrinterCall.objectPairUint32 h.1 h.2] = c :: cs ∧ c ≠ .objectEnd)
    hostNames hostNames' _ _ (by simpa only [List.append_assoc, List.cons_append, List.nil_append] using heq)
  simp only [List.cons.injEq, JsonPrinterCall.objectPairUint64.injEq, true_and,
    JsonPrinterCall.objectPairUint32.injEq] at htail
  obtain ⟨hid, rfl, rfl⟩ := htail
  exact ⟨by rw [BitVec.eq_of_toNat_eq hid], rfl⟩

theorem GroupsResult.readable : Readable GroupsResult.calls := by
  rintro ⟨flag, groups⟩ ⟨flag', groups'⟩ rest rest' heq
  simp only [GroupsResult.calls, List.append_assoc, List.cons_append, List.nil_append,
    List.cons.injEq, JsonPrinterCall.objectPairBoolean.injEq, true_and] at heq
  obtain ⟨rfl, heq⟩ := heq
  obtain ⟨rfl, hrest⟩ := GroupResult.readable.flatMap (fun r => ⟨_, _, rfl, nofun⟩ :
    ∀ r, ∃ c cs, GroupResult.calls r = c :: cs ∧ c ≠ .arrayEnd) groups groups' rest rest'
    (by simpa only [List.append_assoc, List.cons_append, List.nil_append] using heq)
  exact ⟨rfl, hrest⟩

/-- **A result can be read back** from what is printed. -/
theorem SearchResult.calls_injective (general : List JsonPrinterCall) :
    Function.Injective (SearchResult.calls general) := by
  have hread := GroupsResult.readable.flatMap (fun r => ⟨_, _, rfl, nofun⟩ :
    ∀ r, ∃ c cs, GroupsResult.calls r = c :: cs ∧ c ≠ .objectEnd)
  rintro (_ | arrays) (_ | arrays') heq
  · rfl
  · cases heq
  · cases heq
  · simp only [SearchResult.calls, List.cons_append, List.cons.injEq, true_and,
      List.append_cancel_left_eq] at heq
    rw [hread.injective heq]

/-! ## What is reported -/

/-- The number of filters with a hit. -/
def HonasState.hits (honasState : HonasState) (bytes : List Byte) : Option ℕ :=
  (honasStateCheckHostNameLookups honasState bytes none).map Prod.fst

/-- The number of hits of a host name whose value is `value`. -/
def HonasState.valueHits (honasState : HonasState) (value : List Byte) : Option ℕ :=
  (decodeStringHex value (value.length / 2)).bind honasState.hits

/-- A host name is reported when it has hits. -/
def HonasState.reportHostName (honasState : HonasState) (flatten : Bool)
    (entry : List Byte × List Byte) : Option (List Byte × ℕ) :=
  (honasState.valueHits entry.2).bind fun hits =>
    if 0 < honasState.reportedHits flatten hits then
      some (truncate entry.1, honasState.reportedHits flatten hits)
    else none

/-- The host names of a group that are reported. -/
def HonasState.reportHostNames (honasState : HonasState) (flatten : Bool) (g : JobGroup) :
    List (List Byte × ℕ) :=
  g.hostNames.filterMap (honasState.reportHostName flatten)

/-- A group is reported when a host name is: the names and the identifier. -/
def HonasState.reportGroup (honasState : HonasState) (flatten : Bool) (g : JobGroup) :
    Option (List (List Byte × ℕ) × BitVec 64) :=
  if honasState.reportHostNames flatten g = [] then none
  else some (honasState.reportHostNames flatten g, g.id.getD 0)

/-! ## The filters that are hit do not influence the count -/

theorem hits_of_check {s : HonasState} {bytes : List Byte} {set set' : Option Bitset} {hits : ℕ}
    (h : honasStateCheckHostNameLookups s bytes set = some (hits, set')) :
    s.hits bytes = some hits := by
  rw [HonasState.hits, honasStateCheckHostNameLookups, checkFilters_none h]
  rfl

/-! ## The callbacks over a document -/

section Callbacks

variable {text : SearchText} {s : HonasState} {ctx : SearchSpecContext}

/-! ### Inside a group -/

/-- The hashes of a group that decode can be looked up. -/
def JobGroup.Checked (s : HonasState) (g : JobGroup) : Prop :=
  ∀ entry ∈ g.hostNames, ∀ bytes, decodeStringHex entry.2 (entry.2.length / 2) = some bytes →
    (s.hits bytes).isSome

/-- **The invariant inside a group** of which `g` was read, printed after
    `base`. -/
structure InGroup (s : HonasState) (flatten : Bool) (base : List JsonPrinterCall) (g : JobGroup)
    (ctx : SearchSpecContext) : Prop where
  flatten_eq : ctx.flattenResults = flatten
  printed_eq : ctx.printed = base ++
    if s.reportHostNames flatten g = [] then []
    else [.objectBegin, .objectKey (ascii "hostnames"), .objectBegin] ++
      (s.reportHostNames flatten g).flatMap fun h => [.objectPairUint32 h.1 h.2]
  hasResults_iff : ctx.groupHasResults = true ↔ s.reportHostNames flatten g ≠ []
  id_eq : ctx.groupId = g.id.getD 0
  hits : g.Checked s

variable {flatten : Bool} {base : List JsonPrinterCall} {g : JobGroup}

theorem InGroup.congr {ctx' : SearchSpecContext} (h : InGroup s flatten base g ctx)
    (hf : ctx'.flattenResults = ctx.flattenResults) (hp : ctx'.printed = ctx.printed)
    (hr : ctx'.groupHasResults = ctx.groupHasResults) (hi : ctx'.groupId = ctx.groupId) :
    InGroup s flatten base g ctx' :=
  ⟨hf.trans h.flatten_eq, hp.trans h.printed_eq, by rw [hr]; exact h.hasResults_iff,
    hi.trans h.id_eq, h.hits⟩

variable (s flatten) in
theorem reportHostNames_append (g : JobGroup) (entry : List Byte × List Byte) :
    s.reportHostNames flatten { g with hostNames := g.hostNames ++ [entry] } =
      s.reportHostNames flatten g ++ (s.reportHostName flatten entry).toList := by
  rw [HonasState.reportHostNames, HonasState.reportHostNames, List.filterMap_append]
  cases h : s.reportHostName flatten entry with
  | none => rw [List.filterMap_cons_none h]; rfl
  | some r => rw [List.filterMap_cons_some h]; rfl

/-- A host name that is not reported. -/
theorem InGroup.skip {entry : List Byte × List Byte} (h : InGroup s flatten base g ctx)
    (hn : s.reportHostName flatten entry = none)
    (hb : ∀ bytes, decodeStringHex entry.2 (entry.2.length / 2) = some bytes →
      (s.hits bytes).isSome) :
    InGroup s flatten base { g with hostNames := g.hostNames ++ [entry] } ctx := by
  have hrep := reportHostNames_append s flatten g entry
  rw [hn, Option.toList_none, List.append_nil] at hrep
  refine ⟨h.flatten_eq, by rw [hrep]; exact h.printed_eq, by rw [hrep]; exact h.hasResults_iff,
    h.id_eq, fun e he => ?_⟩
  rcases List.mem_append.1 he with he | he
  · exact h.hits e he
  · rw [List.mem_singleton.1 he]; exact hb

/-- A host name that is reported, when the group is open. -/
theorem InGroup.report {ctx' : SearchSpecContext} {entry : List Byte × List Byte} {k : List Byte}
    {n : ℕ} (h : InGroup s flatten base g ctx) (hn : s.reportHostName flatten entry = some (k, n))
    (hb : ∀ bytes, decodeStringHex entry.2 (entry.2.length / 2) = some bytes →
      (s.hits bytes).isSome)
    (hf : ctx'.flattenResults = ctx.flattenResults) (hi : ctx'.groupId = ctx.groupId)
    (hr : ctx'.groupHasResults = true)
    (hp : ctx'.printed = base ++ ([.objectBegin, .objectKey (ascii "hostnames"), .objectBegin] ++
      (s.reportHostNames flatten g).flatMap fun h => [.objectPairUint32 h.1 h.2])) :
    InGroup s flatten base { g with hostNames := g.hostNames ++ [entry] }
      (ctx'.print [.objectPairUint32 k n]) := by
  have hrep := reportHostNames_append s flatten g entry
  rw [hn, Option.toList_some] at hrep
  have hne : s.reportHostNames flatten { g with hostNames := g.hostNames ++ [entry] } ≠ [] := by
    rw [hrep]; simp
  refine ⟨hf.trans h.flatten_eq, ?_, iff_of_true hr hne, hi.trans h.id_eq, fun e he => ?_⟩
  · rw [if_neg hne, hrep, SearchSpecContext.print, hp]
    simp
  · rcases List.mem_append.1 he with he | he
    · exact h.hits e he
    · rw [List.mem_singleton.1 he]; exact hb

/-- **A host name with a decoded hash.** -/
theorem InGroup.process (h : InGroup s flatten base g ctx) {value bytes : List Byte}
    {ctx' : SearchSpecContext} (hd : decodeStringHex value (value.length / 2) = some bytes)
    (hp : processHostName s ctx bytes = some ctx') :
    InGroup s flatten base { g with hostNames := g.hostNames ++ [(ctx.hostNameKey, value)] } ctx' := by
  obtain ⟨hits, set, hc, hcase⟩ := processHostName_cases hp
  have hhits := hits_of_check hc
  have hsome : ∀ b, decodeStringHex value (value.length / 2) = some b → (s.hits b).isSome := by
    intro b hb
    rw [hd, Option.some_inj] at hb
    rw [← hb, hhits]
    rfl
  have hrep : ctx.reportedHits s hits = s.reportedHits flatten hits := by
    rw [SearchSpecContext.reportedHits, HonasState.reportedHits, h.flatten_eq]
  have hin : InGroup s flatten base g (ctx.setFiltersHit set) :=
    h.congr (by simp) (by simp) (by simp) (by simp)
  have hname : s.reportHostName flatten (ctx.hostNameKey, value) =
      if 0 < s.reportedHits flatten hits then
        some (truncate ctx.hostNameKey, s.reportedHits flatten hits) else none := by
    rw [HonasState.reportHostName, HonasState.valueHits, hd, Option.bind_some, hhits,
      Option.bind_some]
  have hopen : ctx.groupHasResults = true → (ctx.setFiltersHit set).printed = base ++
      ([.objectBegin, .objectKey (ascii "hostnames"), .objectBegin] ++
        (s.reportHostNames flatten g).flatMap fun h => [.objectPairUint32 h.1 h.2]) := by
    intro hres
    have hprinted := hin.printed_eq
    rwa [if_neg (h.hasResults_iff.1 hres)] at hprinted
  rw [hrep] at hcase
  rcases hcase with ⟨hzero, rfl⟩ | ⟨hpos, hres, rfl⟩ | ⟨hpos, hres, -, both, -, rfl⟩ |
    ⟨hpos, hres, -, rfl⟩
  · rw [if_neg (by omega)] at hname
    exact (hin.skip hname hsome).congr rfl rfl rfl rfl
  · -- the first result opens the group
    rw [if_pos hpos, ← setFiltersHit_hostNameKey ctx set] at hname
    have hnil : s.reportHostNames flatten g = [] := by
      by_contra hne
      rw [h.hasResults_iff.2 hne] at hres
      cases hres
    have hprinted := hin.printed_eq
    rw [if_pos hnil, List.append_nil] at hprinted
    rw [← setFiltersHit_hostNameKey ctx set]
    refine hin.report hname hsome rfl rfl rfl ?_
    rw [hnil, SearchSpecContext.print, hprinted]
    rfl
  · rw [if_pos hpos, ← setFiltersHit_hostNameKey ctx set] at hname
    rw [← setFiltersHit_hostNameKey ctx set]
    exact hin.report hname hsome rfl rfl ((setFiltersHit_groupHasResults ctx set).trans hres)
      (hopen hres)
  · rw [if_pos hpos, ← setFiltersHit_hostNameKey ctx set] at hname
    rw [← setFiltersHit_hostNameKey ctx set]
    exact hin.report hname hsome rfl rfl ((setFiltersHit_groupHasResults ctx set).trans hres)
      (hopen hres)

/-- The invariant holds throughout a group. -/
theorem inGroup_invariant : GroupInvariant s (InGroup s flatten base) := by
  refine ⟨fun _ _ h => h.congr rfl rfl rfl rfl, fun id h => ?_, ?_⟩
  · exact ⟨h.flatten_eq, h.printed_eq, h.hasResults_iff, rfl, h.hits⟩
  · intro g ctx value ctx' h _ hv
    obtain ⟨-, -, ⟨hd, rfl⟩ | ⟨bytes, hd, hp⟩⟩ := searchSpecString_cases hv
    · have hn : s.reportHostName flatten (ctx.hostNameKey, value) = none := by
        rw [HonasState.reportHostName, HonasState.valueHits, hd]
        rfl
      refine (h.skip hn fun bytes hb => ?_).congr rfl rfl rfl rfl
      rw [hd] at hb
      cases hb
    · have hctx : InGroup s flatten base g { ctx with state := .hostNameMap } :=
        h.congr rfl rfl rfl rfl
      exact hctx.process hd hp

/-- The result of a group, when it is reported. -/
def HonasState.groupResults (s : HonasState) (flatten : Bool) (g : JobGroup) (hitsByAll : ℕ) :
    List GroupResult :=
  (s.reportGroup flatten g).toList.map fun r => ⟨r.1, r.2, hitsByAll⟩

/-- The end of a group prints its result. -/
theorem InGroup.finish (h : InGroup s flatten base g ctx) (hs : ctx.state = .group)
    {ctx' : SearchSpecContext} (he : searchSpecEndMap s ctx = some ctx') :
    ctx'.flattenResults = flatten ∧ ctx'.groupFiltersHit = ctx.groupFiltersHit ∧
      ctx'.hostNameFiltersHit = ctx.hostNameFiltersHit ∧
      ctx'.printed = base ++ (s.groupResults flatten g (ctx.hitsByAll s)).flatMap GroupResult.calls := by
  rw [searchSpecEndMap, hs] at he
  dsimp only at he
  by_cases hres : ctx.groupHasResults = true
  · have hne := h.hasResults_iff.1 hres
    have hp := h.printed_eq
    rw [if_neg hne] at hp
    rw [if_pos hres, Option.some_inj] at he
    subst he
    refine ⟨h.flatten_eq, rfl, rfl, ?_⟩
    rw [HonasState.groupResults, HonasState.reportGroup, if_neg hne, Option.toList_some,
      List.map_singleton, List.flatMap_singleton, SearchSpecContext.print, hp, GroupResult.calls,
      h.id_eq, SearchSpecContext.hitsByAll]
    simp
  · have hnil : s.reportHostNames flatten g = [] := by
      by_contra hne
      exact hres (h.hasResults_iff.2 hne)
    have hp := h.printed_eq
    rw [if_pos hnil] at hp
    rw [if_neg hres, Option.some_inj] at he
    subst he
    refine ⟨h.flatten_eq, rfl, rfl, ?_⟩
    rw [HonasState.groupResults, HonasState.reportGroup, if_pos hnil]
    exact hp

/-! ### Arrays of groups -/

/-- The results of the groups of an array. -/
structure GroupsReported (s : HonasState) (flatten : Bool) (gs : List JobGroup)
    (results : List GroupResult) : Prop where
  contents : results.map (fun r => (r.hostNames, r.id)) = gs.filterMap (s.reportGroup flatten)
  hits : flatten = true → ∀ r ∈ results, r.hitsByAllHostNames ≤ 1
  checked : ∀ g ∈ gs, g.Checked s

theorem GroupsReported.cons {gs : List JobGroup} {results : List GroupResult}
    (h : GroupsReported s flatten gs results) (hg : g.Checked s) {hitsByAll : ℕ}
    (hh : flatten = true → hitsByAll ≤ 1) :
    GroupsReported s flatten (g :: gs) (s.groupResults flatten g hitsByAll ++ results) := by
  refine ⟨?_, fun hf r hr => ?_, ?_⟩
  · rw [List.map_append, h.contents, HonasState.groupResults]
    cases hrep : s.reportGroup flatten g with
    | none => rw [List.filterMap_cons_none hrep]; rfl
    | some r => rw [List.filterMap_cons_some hrep]; rfl
  · rcases List.mem_append.1 hr with hr | hr
    · obtain ⟨r, -, rfl⟩ := List.mem_map.1 hr
      exact hh hf
    · exact h.hits hf r hr
  · rw [List.forall_mem_cons]
    exact ⟨hg, h.checked⟩

/-- How often all host names of a group are found: the number of filters that
    contain them all, flattened or not. -/
def HonasState.hitsByAll (s : HonasState) (flatten : Bool) (g : JobGroup) : ℕ :=
  s.reportedHits flatten (s.commonFilters g.hashes).length

/-- The results of an array of groups. -/
def HonasState.results (s : HonasState) (flatten : Bool) (gs : List JobGroup) : List GroupResult :=
  gs.flatMap fun g => s.groupResults flatten g (s.hitsByAll flatten g)

theorem hitsByAll_le (g : JobGroup) : s.hitsByAll true g ≤ 1 := by
  rw [HonasState.hitsByAll, HonasState.reportedHits, if_pos rfl]
  split_ifs <;> omega

theorem results_reported : ∀ {gs : List JobGroup}, (∀ g ∈ gs, g.Checked s) →
    GroupsReported s flatten gs (s.results flatten gs)
  | [], _ => ⟨rfl, fun _ _ h => (List.not_mem_nil h).elim, fun _ h => (List.not_mem_nil h).elim⟩
  | g :: gs, h => by
    rw [List.forall_mem_cons] at h
    exact (results_reported h.2).cons h.1 fun hf => by rw [hf]; exact hitsByAll_le g

/-- **The invariant inside an array** of which `gs` was read, printed after
    `base`. -/
structure InArray (s : HonasState) (flatten : Bool) (base : List JsonPrinterCall)
    (gs : List JobGroup) (ctx : SearchSpecContext) : Prop where
  flatten_eq : ctx.flattenResults = flatten
  group : ctx.groupFiltersHit.Fits (s.header .numberOfFilters)
  hostName : ctx.hostNameFiltersHit.Fits (s.header .numberOfFilters)
  printed_eq : ctx.printed = base ++ (s.results flatten gs).flatMap GroupResult.calls
  checked : ∀ g ∈ gs, g.Checked s

/-- The invariants at the start of a group. -/
theorem InArray.startGroup {gs : List JobGroup} (h : InArray s flatten base gs ctx) :
    InGroup s flatten ctx.printed ⟨none, []⟩ ctx.startGroup ∧
      Narrowed s flatten (JobGroup.hashes ⟨none, []⟩) ctx.startGroup := by
  have hnone : s.reportHostNames flatten ⟨none, []⟩ = [] := rfl
  have hhashes : JobGroup.hashes ⟨none, []⟩ = [] := rfl
  constructor
  · refine ⟨h.flatten_eq, ?_, ?_, rfl, fun _ hm => (List.not_mem_nil hm).elim⟩
    · rw [if_pos hnone, List.append_nil]
      rfl
    · rw [hnone]
      exact iff_of_false Bool.false_ne_true fun hne => hne rfl
  · rw [hhashes]
    refine ⟨h.flatten_eq, h.group, h.hostName, ?_, ?_, fun _ ht => (Bool.false_ne_true ht).elim⟩
    · refine iff_of_false Bool.false_ne_true ?_
      rintro ⟨_, hm, -⟩
      exact List.not_mem_nil hm
    · exact iff_of_true rfl fun _ hm => (List.not_mem_nil hm).elim

/-- **A group** adds its result. -/
theorem inArray_invariant : ArrayInvariant text s (InArray s flatten base) := by
  intro gs ctx members ctx' h hs hr
  obtain ⟨ctx₁, ⟨hin, hnar⟩, hs₁, he⟩ :=
    (inGroup_invariant.and narrowed_invariant).group h.startGroup hs hr
  obtain ⟨hf, hg, hn, hp⟩ := hin.finish hs₁ he
  have hresult : s.groupResults flatten (JobGroup.ofMembers members) (ctx₁.hitsByAll s) =
      s.groupResults flatten (JobGroup.ofMembers members)
        (s.hitsByAll flatten (JobGroup.ofMembers members)) := by
    by_cases hnil : s.reportHostNames flatten (JobGroup.ofMembers members) = []
    · rw [HonasState.groupResults, HonasState.groupResults, HonasState.reportGroup, if_pos hnil]
      rfl
    · rw [hnar.hitsByAll_eq (hin.hasResults_iff.2 hnil), HonasState.hitsByAll]
  refine ⟨hf, hg ▸ hnar.group, hn ▸ hnar.hostName, ?_, ?_⟩
  · rw [hp, h.printed_eq, hresult, HonasState.results, HonasState.results, List.flatMap_append,
      List.flatMap_singleton, List.flatMap_append, List.append_assoc]
  · rw [List.forall_mem_append, List.forall_mem_singleton]
    exact ⟨h.checked, hin.hits⟩

/-- The results of the arrays of a job. -/
def ArraysReported (s : HonasState) (flatten : Bool) (arrays : List (List JobGroup))
    (results : List GroupsResult) : Prop :=
  List.Forall₂ (fun gs r => r.flattenedResults = flatten ∧ GroupsReported s flatten gs r.groups)
    arrays results

/-- The results of the arrays of a job. -/
def HonasState.arrayResults (s : HonasState) (flatten : Bool) (arrays : List (List JobGroup)) :
    List GroupsResult :=
  arrays.map fun gs => ⟨flatten, s.results flatten gs⟩

/-- **The invariant at the root** of a job of which `arrays` was read, printed
    after `base`. -/
structure InJob (s : HonasState) (flatten : Bool) (base : List JsonPrinterCall)
    (arrays : List (List JobGroup)) (ctx : SearchSpecContext) : Prop where
  flatten_eq : ctx.flattenResults = flatten
  group : ctx.groupFiltersHit.Fits (s.header .numberOfFilters)
  hostName : ctx.hostNameFiltersHit.Fits (s.header .numberOfFilters)
  printed_eq : ctx.printed = base ++ (s.arrayResults flatten arrays).flatMap GroupsResult.calls
  checked : ∀ gs ∈ arrays, ∀ g ∈ gs, g.Checked s

/-- **An array of groups** adds its results. -/
theorem inJob_invariant : JobInvariant text s (InJob s flatten base) := by
  refine ⟨?_, fun h => ⟨h.flatten_eq, h.group, h.hostName, h.printed_eq, h.checked⟩⟩
  intro arrays ctx elems ctx' h hs hr
  have hstart : ∀ ctx₁, searchSpecStartArray ctx = some ctx₁ →
      InArray s flatten (ctx.printed ++ [.objectPairBoolean (ascii "flattened_results") flatten,
        .objectKey (ascii "groups"), .arrayBegin]) [] ctx₁ := by
    intro ctx₁ he
    rw [searchSpecStartArray, hs] at he
    dsimp only at he
    rw [← Option.some_inj.1 he]
    refine ⟨h.flatten_eq, h.group, h.hostName, ?_, fun _ hm => (List.not_mem_nil hm).elim⟩
    rw [HonasState.results, List.flatMap_nil, List.flatMap_nil, List.append_nil, ← h.flatten_eq]
    rfl
  obtain ⟨ctx₁, h₁, -, rfl⟩ := inArray_invariant.array hs hstart hr
  refine ⟨h₁.flatten_eq, h₁.group, h₁.hostName, ?_, ?_⟩
  · rw [SearchSpecContext.print, h₁.printed_eq, h.printed_eq, HonasState.arrayResults,
      HonasState.arrayResults, List.map_append, List.flatMap_append, List.map_singleton,
      List.flatMap_singleton, GroupsResult.calls]
    simp
  · rw [List.forall_mem_append, List.forall_mem_singleton]
    exact ⟨h.checked, h₁.checked⟩

end Callbacks

/-- Whether the results are flattened. -/
def HonasState.flattens (s : HonasState) (flattenThreshold : ℕ) : Bool :=
  s.header .estimatedNumberOfHostNames < flattenThreshold

/-- The result of a job. -/
def HonasState.searchResult (s : HonasState) (flatten : Bool) : Json → SearchResult
  | .object members => .object (s.arrayResults flatten (jobArrays members))
  | _ => .empty

/-- **The result of an accepted job**, and the job is an object or a literal. -/
theorem searchJobCalls_result {text : SearchText} {s : HonasState} {flattenThreshold : ℕ}
    {job : Json} {calls : List JsonPrinterCall}
    (h : searchJobCalls text s flattenThreshold job = some calls) :
    calls = (s.searchResult (s.flattens flattenThreshold) job).calls (addGeneralInformation text s) ∧
      ∀ gs ∈ jobGroupsArrays job, ∀ g ∈ gs, g.Checked s := by
  rw [searchJobCalls] at h
  simp only [Option.bind_eq_bind, Option.bind_eq_some_iff, Option.some_inj] at h
  obtain ⟨r, hr, rfl⟩ := h
  by_cases hv : job.IsLiteral
  · rw [← List.append_nil job.events, foldlM_literal hv, List.foldlM_nil] at hr
    rw [← Option.some_inj.1 hr]
    cases job with
    | null | boolean | double => exact ⟨rfl, fun _ hm => (List.not_mem_nil hm).elim⟩
    | integer | string | array | object => exact hv.elim
  cases job with
  | object members =>
    rw [Json.events, List.cons_append, List.foldlM_cons, searchSpecEvent, searchSpecStartMap] at hr
    dsimp only [Option.bind_eq_bind, Option.bind_some] at hr
    rw [← List.append_nil members] at hr
    have hfit := bitsetCreate_fits s.numberOfFilters_add_lt
    obtain ⟨ctx', he, h', hs'⟩ := (@inJob_invariant text s (s.flattens flattenThreshold)
      (.objectBegin :: addGeneralInformation text s)).members
      ⟨rfl, hfit, hfit, (List.append_nil _).symm, fun _ hm => (List.not_mem_nil hm).elim⟩ rfl hr
    rw [List.append_nil, List.foldlM_append] at hr
    obtain ⟨ctx₁, he₁, hr⟩ := Option.bind_eq_some_iff.1 hr
    obtain rfl : ctx' = ctx₁ := Option.some_inj.1 (he.symm.trans he₁)
    rw [List.foldlM_cons, searchSpecEvent, searchSpecEndMap, hs'] at hr
    dsimp only [Option.bind_eq_bind, Option.bind_some, List.foldlM_nil] at hr
    refine ⟨?_, h'.checked⟩
    rw [← Option.some_inj.1 hr, HonasState.searchResult, SearchResult.calls, SearchSpecContext.print,
      h'.printed_eq, List.nil_append, List.append_assoc]
  | null | boolean | double => exact absurd trivial hv
  | integer | string | array => cases hr

/-- All groups of the result. -/
theorem searchResult_groups (s : HonasState) (flatten : Bool) (job : Json) :
    (s.searchResult flatten job).groups = s.results flatten (jobGroupsArrays job).flatten := by
  cases job with
  | object members =>
    rw [SearchResult.groups, HonasState.searchResult, SearchResult.arrays, HonasState.arrayResults,
      List.flatMap_map, HonasState.results, List.flatten_eq_flatMap, List.flatMap_assoc]
    rfl
  | null | boolean | double | integer | string | array => rfl

/-- The result of an accepted job, array by array. -/
theorem searchJobCalls_spec {text : SearchText} {s : HonasState} {flattenThreshold : ℕ}
    {job : Json} {calls : List JsonPrinterCall}
    (h : searchJobCalls text s flattenThreshold job = some calls) :
    ∃ result : SearchResult, calls = result.calls (addGeneralInformation text s) ∧
      ArraysReported s (s.flattens flattenThreshold) (jobGroupsArrays job) result.arrays := by
  obtain ⟨hcalls, hchecked⟩ := searchJobCalls_result h
  refine ⟨_, hcalls, ?_⟩
  cases job with
  | object members =>
    exact List.forall₂_map_right_iff.2 (List.forall₂_same.2 fun gs hm =>
      ⟨rfl, results_reported (hchecked gs hm)⟩)
  | null | boolean | double | integer | string | array => exact .nil

theorem ArraysReported.flattened {s : HonasState} {flatten : Bool} {arrays : List (List JobGroup)}
    {results : List GroupsResult} (h : ArraysReported s flatten arrays results) {P : Prop} :
    (∀ r ∈ results, (r.flattenedResults = true ↔ P)) ↔ arrays = [] ∨ (flatten = true ↔ P) := by
  induction h with
  | nil => simp
  | cons hr _ ih =>
    rw [List.forall_mem_cons, ih, hr.1]
    simp only [reduceCtorEq, false_or]
    exact and_iff_left_of_imp .inr

/-- The groups of all arrays. -/
theorem ArraysReported.groups {s : HonasState} {flatten : Bool} {arrays : List (List JobGroup)}
    {results : List GroupsResult} (h : ArraysReported s flatten arrays results) :
    GroupsReported s flatten arrays.flatten (results.flatMap GroupsResult.groups) := by
  induction h with
  | nil =>
    exact ⟨rfl, fun _ _ h => (List.not_mem_nil h).elim, fun _ h => (List.not_mem_nil h).elim⟩
  | cons hr _ ih =>
    obtain ⟨-, hr⟩ := hr
    refine ⟨?_, fun hf r hm => ?_, fun g hg => ?_⟩
    · rw [List.flatMap_cons, List.flatten_cons, List.map_append, List.filterMap_append, hr.contents,
        ih.contents]
    · rcases List.mem_append.1 hm with hm | hm
      · exact hr.hits hf r hm
      · exact ih.hits hf r hm
    · rcases List.mem_append.1 hg with hg | hg
      · exact hr.checked g hg
      · exact ih.checked g hg

/-- Flattened counts are 0 or 1. -/
theorem GroupsReported.counts_le {s : HonasState} {gs : List JobGroup}
    {results : List GroupResult} (h : GroupsReported s true gs results) :
    ∀ r ∈ results, (∀ n ∈ r.hostNames, n.2 ≤ 1) ∧ r.hitsByAllHostNames ≤ 1 := by
  intro r hr
  refine ⟨fun n hn => ?_, h.hits rfl r hr⟩
  have hmem : (r.hostNames, r.id) ∈ gs.filterMap (s.reportGroup true) := by
    rw [← h.contents]
    exact List.mem_map_of_mem hr
  obtain ⟨g, -, hg⟩ := List.mem_filterMap.1 hmem
  rw [HonasState.reportGroup] at hg
  split_ifs at hg
  rw [Option.some_inj, Prod.mk.injEq] at hg
  rw [← hg.1, HonasState.reportHostNames] at hn
  obtain ⟨entry, -, hentry⟩ := List.mem_filterMap.1 hn
  rw [HonasState.reportHostName] at hentry
  obtain ⟨hits, -, hentry⟩ := Option.bind_eq_some_iff.1 hentry
  split_ifs at hentry
  rw [← Option.some_inj.1 hentry, HonasState.reportedHits]
  dsimp only
  split_ifs <;> simp_all

/-! ## What the printer writes -/

/-- The keys of the host names in a result. -/
def SearchResult.keys (r : SearchResult) : List (List Byte) :=
  r.groups.flatMap fun g => g.hostNames.map Prod.fst

/-- A host name is reported under its key, up to the first zero. -/
theorem reportHostName_key {s : HonasState} {flatten : Bool} {entry : List Byte × List Byte}
    {r : List Byte × ℕ} (h : s.reportHostName flatten entry = some r) : r.1 = truncate entry.1 := by
  rw [HonasState.reportHostName] at h
  obtain ⟨hits, -, h⟩ := Option.bind_eq_some_iff.1 h
  split_ifs at h
  rw [← Option.some_inj.1 h]

theorem reportHostNames_written_iff {s : HonasState} {flatten : Bool} {g : JobGroup} :
    (∀ r ∈ s.reportHostNames flatten g, (jsonPrinterWriteString r.1).isSome) ↔
      ∀ entry ∈ g.hostNames, (s.reportHostName flatten entry).isSome →
        (jsonPrinterWriteString entry.1).isSome := by
  constructor
  · intro h entry he hs
    obtain ⟨r, hr⟩ := Option.isSome_iff_exists.1 hs
    have hkey := h r (List.mem_filterMap.2 ⟨entry, he, hr⟩)
    rwa [reportHostName_key hr, jsonPrinterWriteString_truncate] at hkey
  · intro h r hmem
    obtain ⟨entry, he, hr⟩ := List.mem_filterMap.1 hmem
    rw [reportHostName_key hr, jsonPrinterWriteString_truncate]
    exact h entry he (Option.isSome_of_mem hr)

/-- **The keys of a result** are those of the host names that are found. -/
theorem searchResult_keys_written_iff {s : HonasState} {flatten : Bool} {job : Json} :
    (∀ key ∈ (s.searchResult flatten job).keys, (jsonPrinterWriteString key).isSome) ↔
      ∀ g ∈ (jobGroupsArrays job).flatten, ∀ entry ∈ g.hostNames,
        (s.reportHostName flatten entry).isSome → (jsonPrinterWriteString entry.1).isSome := by
  have hgroup : ∀ g : JobGroup, (∀ r ∈ s.groupResults flatten g (s.hitsByAll flatten g),
      ∀ h ∈ r.hostNames, (jsonPrinterWriteString h.1).isSome) ↔ ∀ entry ∈ g.hostNames,
        (s.reportHostName flatten entry).isSome → (jsonPrinterWriteString entry.1).isSome := by
    intro g
    rw [HonasState.groupResults, HonasState.reportGroup, ← reportHostNames_written_iff]
    split_ifs with hnil
    · rw [hnil]
      exact iff_of_true nofun nofun
    · simp
  simp only [SearchResult.keys, searchResult_groups, HonasState.results, List.forall_mem_flatMap,
    List.forall_mem_map, hgroup]

theorem addGeneralInformation_written {text : SearchText} (ht : text.Plain) (s : HonasState) :
    ∀ c ∈ addGeneralInformation text s, c.Written := by
  rw [addGeneralInformation]
  simp only [List.forall_mem_append, List.forall_mem_cons, List.forall_mem_flatMap]
  refine ⟨⟨⟨.pair (by decide) ht.version.isSome,
    .pair (by decide) (ht.versionString _ _).isSome, ?_⟩, fun i _ => ?_⟩, ?_⟩
  · iterate 13 refine ⟨(JsonPrinterCall.written_iff rfl).2 (by decide), ?_⟩
    exact ⟨.of_nil rfl, nofun⟩
  · exact ⟨.of_nil rfl, (JsonPrinterCall.written_iff rfl).2 (by decide),
      (JsonPrinterCall.written_iff rfl).2 (by decide),
      .pair (by decide) (ht.actualFalsePositiveRate _ _ _).isSome, .of_nil rfl, nofun⟩
  · exact ⟨.of_nil rfl, nofun⟩

theorem GroupResult.written_iff (r : GroupResult) : (∀ c ∈ r.calls, c.Written) ↔
    ∀ key ∈ r.hostNames.map Prod.fst, (jsonPrinterWriteString key).isSome := by
  have hpairs : ∀ h : List Byte × ℕ, (JsonPrinterCall.objectPairUint32 h.1 h.2).Written ↔
      (jsonPrinterWriteString h.1).isSome := fun h => JsonPrinterCall.written_iff rfl
  rw [GroupResult.calls]
  simp only [List.forall_mem_append, List.forall_mem_flatMap, List.forall_mem_singleton, hpairs,
    List.forall_mem_map]
  refine ⟨fun h => h.1.2.1, fun h => ⟨⟨?_, h, .of_nil rfl⟩, ?_⟩⟩
  · simp only [List.forall_mem_cons]
    exact ⟨.of_nil rfl, (JsonPrinterCall.written_iff rfl).2 (by decide), .of_nil rfl, nofun⟩
  · simp only [List.forall_mem_cons]
    exact ⟨(JsonPrinterCall.written_iff rfl).2 (by decide),
      (JsonPrinterCall.written_iff rfl).2 (by decide), .of_nil rfl, nofun⟩

theorem GroupsResult.written_iff (r : GroupsResult) :
    (∀ c ∈ r.calls, c.Written) ↔ ∀ g ∈ r.groups, ∀ c ∈ g.calls, c.Written := by
  rw [GroupsResult.calls]
  simp only [List.forall_mem_append, List.forall_mem_flatMap, List.forall_mem_cons]
  exact ⟨fun h => h.2.1, fun h => ⟨⟨(JsonPrinterCall.written_iff rfl).2 (by decide),
    (JsonPrinterCall.written_iff rfl).2 (by decide), .of_nil rfl, nofun⟩, h, .of_nil rfl, nofun⟩⟩

/-- **The program does not die** exactly if the keys of the host names can be
    written. -/
theorem SearchResult.written_iff {general : List JsonPrinterCall}
    (hgeneral : ∀ c ∈ general, c.Written) (r : SearchResult) :
    (∀ c ∈ r.calls general, c.Written) ↔ ∀ key ∈ r.keys, (jsonPrinterWriteString key).isSome := by
  have hkeys : (∀ key ∈ r.keys, (jsonPrinterWriteString key).isSome) ↔
      ∀ g ∈ r.groups, ∀ c ∈ g.calls, c.Written := by
    simp only [SearchResult.keys, List.forall_mem_flatMap, GroupResult.written_iff]
  rw [hkeys]
  cases r with
  | empty => exact iff_of_true nofun nofun
  | object arrays =>
    simp only [SearchResult.calls, SearchResult.groups, SearchResult.arrays, List.forall_mem_append,
      List.forall_mem_cons, List.forall_mem_flatMap, GroupsResult.written_iff]
    exact ⟨fun h => h.2.1, fun h => ⟨⟨.of_nil rfl, hgeneral⟩, h, .of_nil rfl, nofun⟩⟩

/-- **When a job is answered**: the callbacks accept it, and the keys of the host
    names that are found can be written. -/
theorem performSearchJob_eq_some_iff_keys {text : SearchText} (ht : text.Plain) {s : HonasState}
    {flattenThreshold : ℕ} {job : Json} {result : SearchResult}
    (h : searchJobCalls text s flattenThreshold job =
      some (result.calls (addGeneralInformation text s))) :
    performSearchJob text s flattenThreshold job =
        some (result.calls (addGeneralInformation text s)) ↔
      ∀ key ∈ result.keys, (jsonPrinterWriteString key).isSome := by
  rw [performSearchJob_eq_some_iff, and_iff_right h,
    SearchResult.written_iff (addGeneralInformation_written ht s)]

/-! ## A loaded state -/

/-- The texts do not matter. -/
def noText : SearchText := ⟨[], fun _ _ => [], fun _ _ _ => 0, fun _ _ _ => []⟩

theorem noText_plain : noText.Plain := ⟨nofun, fun _ _ => nofun, fun _ _ _ => nofun⟩

/-- A state file with two filters of eight bits, of which the first one is set,
    two filters per user, and one client: there are hashes in both filters, in the
    first one, and in none. -/
theorem exists_loaded : ∃ file s, honasStateLoad (some file) = some (.ok s) ∧
    s.header .numberOfFilters = 2 ∧ s.header .numberOfFiltersPerUser = 2 ∧
    s.header .estimatedNumberOfClients = 1 ∧ s.header .estimatedNumberOfHostNames = 0 ∧
    ∀ i < 2, s.contains (List.replicate 32 0x00#8) i = true ∧
      s.contains (List.replicate 32 0x11#8) i = decide (i = 0) ∧
      s.contains (List.replicate 32 0x22#8) i = false := by
  obtain ⟨s₀, -, hs₀, -, hzero, -⟩ := honasStateCreate_spec twoPerUser_ok
  have hl₀ : s₀.mmap.length = 45056 := hs₀.length.trans (by decide)
  have hhd : sizeofHeader = 108 := rfl
  set m₁ := splice s₀.mmap 4096 [0x01#8]
  have hspl₁ : 4096 + [0x01#8].length ≤ s₀.mmap.length := by rw [hl₀]; decide
  have hl₁ : m₁.length = 45056 := (length_splice hspl₁).trans hl₀
  set m := splice m₁ 8192 [0x01#8]
  have hspl : 8192 + [0x01#8].length ≤ m₁.length := by rw [hl₁]; decide
  have hl : m.length = 45056 := (length_splice hspl).trans hl₁
  have hlh : sizeofHeader ≤ m.length := by omega
  have hget : ∀ f : HeaderField, headerGet m f = s₀.header f := by
    refine fun f => headerGet_congr ((length_splice hspl).trans (length_splice hspl₁)) (fun i hi => ?_) f
    rw [bitAt_splice hspl, if_neg (by omega), bitAt_splice hspl₁, if_neg (by omega)]
  set file := headerSet m .estimatedNumberOfClients 1 with hfile
  have hflen : file.length = 45056 := (length_headerSet hlh _ _).trans hl
  have hfget : ∀ f : HeaderField, f ≠ .estimatedNumberOfClients → headerGet file f = s₀.header f :=
    fun f hf => (headerGet_headerSet_of_ne hlh hf 1).trans (hget f)
  have hconfig : ∀ f : HeaderField, f.isConfig → headerGet file f = twoPerUser.config f := by
    intro f hf
    rw [hfget f (by rintro rfl; exact absurd hf (by decide))]
    exact hs₀.config f hf
  -- the header and the other filter are written elsewhere
  have hslice : ∀ i < 2, slice file (4096 + i * 4096) 1 = [0x01#8] := by
    intro i hi
    rw [hfile, headerSet, slice_splice_of_disjoint (by rw [length_toLE, hl]; decide) (by omega)
      (by rw [length_toLE]; exact .inr (Nat.le_add_right_of_le (by decide)))]
    interval_cases i
    · rw [slice_splice_of_disjoint hspl (by omega) (.inl (by decide))]
      exact slice_splice_self hspl₁
    · exact slice_splice_self hspl
  obtain ⟨s, hload, hmmap, hs, -⟩ := load_spec twoPerUser_ok (hflen.trans (by decide)) hconfig
  have hheader : ∀ f, s.header f = headerGet file f := fun f => by rw [HonasState.header, hmmap]
  refine ⟨file, s, hload, ?_, ?_, ?_, ?_, fun i hi => ?_⟩
  · rw [hheader, hconfig _ rfl]; decide
  · rw [hheader, hconfig _ rfl]; decide
  · rw [hheader, hfile, headerGet_headerSet_self hlh]; decide
  · rw [hheader, hfget _ (by decide)]
    exact hzero _ (by decide)
  · have hreg : s.filters[i]? = some ⟨4096 + i * 4096, 1⟩ := by
      rw [hs.filters]
      interval_cases i <;> decide
    have hread : readRegion s.mmap ⟨4096 + i * 4096, 1⟩ = some ⟨4096 + i * 4096, [0x01#8]⟩ := by
      rw [hmmap, readRegion_eq (by rw [hflen]; dsimp only; omega), hslice i hi]
    have hk : s.header .numberOfHashes = 1 := by rw [hheader, hconfig _ rfl]; decide
    have hcheck : ∀ hash, s.contains hash i = ((filterIndexHostNameHashTransform i hash).bind fun t =>
        bloomIsSet ⟨4096 + i * 4096, [0x01#8]⟩ t 1).getD false := by
      intro hash
      rw [HonasState.contains, HonasState.checkFilter, hreg, hk]
      simp only [Option.bind_eq_bind, Option.bind_some, hread]
    simp only [hcheck]
    interval_cases i <;> decide +kernel

end Honas

/-
  The documents that the search tool accepts (`src/bin/honas_search.c`).

  An accepted object is answered with one object.  A literal is accepted too, as
  no callback is called for it, and is answered with nothing.  For the same
  reason a key that the tool does not know may be added to an accepted job when
  its value is a literal; any other value calls a callback in a state that does
  not expect it, and the job is rejected.
-/
import Honas.SearchReport
import Honas.JsonPrinterRun

namespace Honas

open Bits CString

/-! ## What is printed is one object -/

/-- The general information is a list of members. -/
theorem addGeneralInformation_describes (text : SearchText) (s : HonasState) :
    DescribesMembers (addGeneralInformation text s) := by
  rw [addGeneralInformation]
  simp only [List.cons_append, List.nil_append]
  iterate 14 refine .pair rfl ?_
  refine .array _ (.flatMap fun i _ => ?_)
  change DescribesElems (.objectBegin :: [_, _, _] ++ [.objectEnd])
  refine .object ?_
  exact .pair rfl (.pair rfl (.pair rfl .nil))

theorem GroupResult.describes (r : GroupResult) : DescribesElems r.calls := by
  have hnames : DescribesMembers (r.hostNames.flatMap fun h => [.objectPairUint32 h.1 h.2]) :=
    .flatMap fun h _ => .pair rfl .nil
  have hmembers := (hnames.object (ascii "hostnames")).append
    (.pair (c := .objectPairUint64 (ascii "id") r.id.toNat) rfl
      (.pair (c := .objectPairUint32 (ascii "hits_by_all_hostnames") r.hitsByAllHostNames) rfl .nil))
  have h := DescribesElems.object hmembers
  simpa [GroupResult.calls] using h

theorem GroupsResult.describes (r : GroupsResult) : DescribesMembers r.calls := by
  have hgroups : DescribesElems (r.groups.flatMap GroupResult.calls) :=
    .flatMap fun g _ => g.describes
  have h := DescribesMembers.pair
    (c := .objectPairBoolean (ascii "flattened_results") r.flattenedResults) rfl
    (.array (ascii "groups") hgroups)
  simpa [GroupsResult.calls] using h

/-- **The result for an object is one object.** -/
theorem SearchResult.describes (text : SearchText) (s : HonasState) (arrays : List GroupsResult) :
    ∃ members, Describes ((SearchResult.object arrays).calls (addGeneralInformation text s))
      (.object members) := by
  have hmembers := (addGeneralInformation_describes text s).append
    (DescribesMembers.flatMap fun r (_ : r ∈ arrays) => r.describes)
  obtain ⟨members, h⟩ := hmembers.whole
  refine ⟨members, ?_⟩
  rw [SearchResult.calls, ← List.append_assoc]
  exact h

/-- An array or a string, or an integer, is no job. -/
theorem searchJobCalls_root {text : SearchText} {s : HonasState} {flattenThreshold : ℕ}
    {job : Json} {calls : List JsonPrinterCall}
    (h : searchJobCalls text s flattenThreshold job = some calls) :
    job.IsLiteral ∨ ∃ members, job = .object members := by
  cases job with
  | null | boolean | double => exact .inl trivial
  | object members => exact .inr ⟨members, rfl⟩
  | integer | string | array => cases h

/-- A literal is accepted, and nothing is printed. -/
theorem performSearchJob_of_literal {text : SearchText} {s : HonasState} {flattenThreshold : ℕ}
    {job : Json} (h : job.IsLiteral) : performSearchJob text s flattenThreshold job = some [] := by
  cases job with
  | null | boolean | double => rfl
  | integer | string | array | object => exact h.elim

/-! ## Unknown keys -/

/-- A key that the tool does not know is added, to the root of a job or to a
    group. -/
inductive AddsUnknown (key : List Byte) (v : Json) : Json → Json → Prop where
  | root {before after : List (List Byte × Json)} (hkey : key ≠ ascii "groups") :
    AddsUnknown key v (.object (before ++ after)) (.object (before ++ (key, v) :: after))
  | group {before after rootBefore rootAfter : List (List Byte × Json)} {elems elems' : List Json}
    (hid : key ≠ ascii "id") (hnames : key ≠ ascii "hostnames") :
    AddsUnknown key v
      (.object (rootBefore ++
        (ascii "groups", .array (elems ++ .object (before ++ after) :: elems')) :: rootAfter))
      (.object (rootBefore ++
        (ascii "groups", .array (elems ++ .object (before ++ (key, v) :: after) :: elems')) ::
          rootAfter))

section Callbacks

variable {text : SearchText} {s : HonasState} {ctx r : SearchSpecContext}

/-- Nothing is kept. -/
theorem jobInvariant_true : JobInvariant text s fun _ _ => True :=
  ⟨fun _ _ _ => trivial, fun _ => trivial⟩

/-- **A member with an unknown key**: only a literal is ignored. -/
theorem foldlM_unknown {key : List Byte} {v : Json} {rest : List JsonEvent}
    (hs : ctx.state = .searchSpec ∨ ctx.state = .group)
    (hkey : searchSpecMapKey ctx key = some ctx) :
    (.mapKey key :: (v.events ++ rest)).foldlM (searchSpecEvent text s) ctx = some r ↔
      v.IsLiteral ∧ rest.foldlM (searchSpecEvent text s) ctx = some r := by
  rw [List.foldlM_cons, searchSpecEvent, hkey]
  constructor
  · exact foldlM_ignored hs
  · rintro ⟨hv, hr⟩
    exact (foldlM_literal hv rest).trans hr

/-- Up to an element of an array of groups, an accepted job is read to the state
    that expects groups. -/
theorem foldlM_elem {rootBefore rootAfter : List (List Byte × Json)} {elems elems' : List Json}
    {v : Json} (hs : ctx.state = .searchSpec)
    (hr : (Json.membersEvents (rootBefore ++ (ascii "groups", Json.array (elems ++ v :: elems')) ::
      rootAfter) ++ [JsonEvent.endMap]).foldlM (searchSpecEvent text s) ctx = some r) :
    ∃ ctx', (Json.membersEvents rootBefore ++ .mapKey (ascii "groups") :: JsonEvent.startArray ::
        Json.elemsEvents elems).foldlM (searchSpecEvent text s) ctx = some ctx' ∧
      ctx'.state = .groupsArray ∧
      (v.events ++ (Json.elemsEvents elems' ++ JsonEvent.endArray ::
        (Json.membersEvents rootAfter ++ [.endMap]))).foldlM (searchSpecEvent text s) ctx' =
          some r := by
  obtain ⟨ctx₁, he₁, -, hs₁⟩ := @JobInvariant.members _ _ _ _ _ [] jobInvariant_true _ _ _ trivial hs hr
  rw [Json.membersEvents_append, List.append_assoc, List.foldlM_append, he₁, Json.membersEvents,
    Json.events] at hr
  simp only [Option.bind_eq_bind, Option.bind_some, List.cons_append, List.append_assoc] at hr
  obtain ⟨ctx₂, hkey, hr⟩ := Option.bind_eq_some_iff.1 hr
  obtain ⟨ctx₃, hstart, hr⟩ := Option.bind_eq_some_iff.1 hr
  have hs₃ : ctx₃.state = .groupsArray := by
    rw [searchSpecEvent, searchSpecMapKey, hs₁] at hkey
    obtain rfl := Option.some_inj.1 hkey
    obtain rfl := Option.some_inj.1 hstart
    rfl
  obtain ⟨ctx', he', -, hs'⟩ := @ArrayInvariant.elems _ _ _ _ (fun _ _ => True) []
    (fun _ _ _ => trivial) _ _ _ trivial hs₃ hr
  refine ⟨ctx', ?_, hs', ?_⟩
  · rw [List.foldlM_append, he₁, Option.bind_eq_bind, Option.bind_some, List.foldlM_cons, hkey,
      Option.bind_eq_bind, Option.bind_some, List.foldlM_cons, hstart]
    exact he'
  · rw [Json.elemsEvents_append, List.append_assoc, List.foldlM_append, he', Json.elemsEvents,
      List.append_assoc] at hr
    exact hr

/-- **Up to the place where a key is added**, an accepted job is read to a state
    that ignores the key. -/
theorem AddsUnknown.prefix {key : List Byte} {v job job' : Json} (h : AddsUnknown key v job job')
    (hs : ctx.state = .init) (hr : job.events.foldlM (searchSpecEvent text s) ctx = some r) :
    ∃ pre post ctx', job.events = pre ++ post ∧
      job'.events = pre ++ .mapKey key :: (v.events ++ post) ∧
      pre.foldlM (searchSpecEvent text s) ctx = some ctx' ∧
      (ctx'.state = .searchSpec ∨ ctx'.state = .group) ∧ searchSpecMapKey ctx' key = some ctx' := by
  have hstart : ∃ ctx₀, searchSpecStartMap text s ctx = some ctx₀ ∧ ctx₀.state = .searchSpec := by
    rw [searchSpecStartMap, hs]
    exact ⟨_, rfl, rfl⟩
  obtain ⟨ctx₀, hctx₀, hs₀⟩ := hstart
  cases h with
  | @root before after hkey =>
    rw [Json.events, List.cons_append, List.foldlM_cons, searchSpecEvent, hctx₀] at hr
    obtain ⟨ctx', he, -, hs'⟩ := @JobInvariant.members _ _ _ _ _ [] jobInvariant_true _ _ _ trivial hs₀ hr
    refine ⟨.startMap :: Json.membersEvents before, Json.membersEvents after ++ [.endMap], ctx',
      ?_, ?_, ?_, .inl hs', ?_⟩
    · simp [Json.events, Json.membersEvents_append]
    · simp [Json.events, Json.membersEvents_append, Json.membersEvents]
    · rw [List.foldlM_cons, searchSpecEvent, hctx₀]
      exact he
    · rw [searchSpecMapKey, hs']
      exact if_neg hkey
  | @group before after rootBefore rootAfter elems elems' hid hnames =>
    rw [Json.events, List.cons_append, List.foldlM_cons, searchSpecEvent, hctx₀] at hr
    obtain ⟨ctx₁, he₁, hs₁, hr⟩ := foldlM_elem hs₀ hr
    rw [Json.events, List.cons_append, List.cons_append, List.append_assoc, List.foldlM_cons,
      searchSpecEvent, searchSpecStartMap, hs₁] at hr
    obtain ⟨ctx', he', -, hs'⟩ := groupInvariant_true.members (g := ⟨none, []⟩) trivial rfl hr
    refine ⟨.startMap :: (Json.membersEvents rootBefore ++ .mapKey (ascii "groups") :: .startArray ::
        Json.elemsEvents elems ++ .startMap :: Json.membersEvents before),
      Json.membersEvents after ++ .endMap :: (Json.elemsEvents elems' ++ .endArray ::
        (Json.membersEvents rootAfter ++ [.endMap])), ctx', ?_, ?_, ?_, .inr hs', ?_⟩
    · simp [Json.events, Json.membersEvents_append, Json.membersEvents, Json.elemsEvents_append,
        Json.elemsEvents]
    · simp [Json.events, Json.membersEvents_append, Json.membersEvents, Json.elemsEvents_append,
        Json.elemsEvents]
    · rw [List.foldlM_cons, searchSpecEvent, hctx₀, Option.bind_eq_bind, Option.bind_some,
        List.foldlM_append, he₁, Option.bind_eq_bind, Option.bind_some, List.foldlM_cons,
        searchSpecEvent, searchSpecStartMap, hs₁]
      exact he'
    · rw [searchSpecMapKey, hs']
      exact (if_neg hid).trans (if_neg hnames)

end Callbacks

/-! ## The grammar -/

/-- **What the tool accepts**: a job is answered with one object exactly when it
    is no literal, and with a key that is not known an accepted job has the same
    result exactly when its value is a literal. -/
theorem search_job_grammar_iff (text : SearchText) (s : HonasState) (flattenThreshold : ℕ) :
    (∀ job, (∀ calls, performSearchJob text s flattenThreshold job = some calls →
      (∃ members, job = .object members) ∧ ∃ members, Describes calls (.object members)) ↔
        ¬ job.IsLiteral) ∧
    (∀ key v job job' calls, AddsUnknown key v job job' →
      performSearchJob text s flattenThreshold job = some calls →
      (performSearchJob text s flattenThreshold job' = some calls ↔ v.IsLiteral)) := by
  constructor
  · intro job
    constructor
    · intro h hv
      obtain ⟨⟨members, rfl⟩, -⟩ := h [] (performSearchJob_of_literal hv)
      exact hv
    · intro hv calls hr
      have hr := (performSearchJob_eq_some_iff.1 hr).1
      obtain hlit | ⟨members, rfl⟩ := searchJobCalls_root hr
      · exact absurd hlit hv
      · refine ⟨⟨members, rfl⟩, ?_⟩
        rw [(searchJobCalls_result hr).1]
        exact SearchResult.describes text s _
  · intro key v job job' calls hadd h
    obtain ⟨hcalls, hwritten⟩ := performSearchJob_eq_some_iff.1 h
    rw [performSearchJob_eq_some_iff, and_iff_left hwritten]
    rw [searchJobCalls] at hcalls ⊢
    simp only [Option.bind_eq_bind, Option.bind_eq_some_iff, Option.some_inj] at hcalls ⊢
    obtain ⟨r, hr, rfl⟩ := hcalls
    obtain ⟨pre, post, ctx', hjob, hjob', hpre, hs', hkey⟩ := hadd.prefix rfl hr
    rw [hjob, List.foldlM_append, hpre] at hr
    rw [hjob', List.foldlM_append, hpre, Option.bind_eq_bind, Option.bind_some]
    constructor
    · rintro ⟨r', hr', -⟩
      exact ((foldlM_unknown hs' hkey).1 hr').1
    · intro hv
      exact ⟨r, (foldlM_unknown hs' hkey).2 ⟨hv, hr⟩, rfl⟩

/-- A job without members, and one with an unknown key. -/
theorem addsUnknown_empty (v : Json) :
    AddsUnknown (ascii "x") v (.object []) (.object [(ascii "x", v)]) :=
  @AddsUnknown.root _ _ [] [] (by decide)

/-- The job without members is answered. -/
theorem exists_performSearchJob_empty (s : HonasState) :
    ∃ calls, performSearchJob noText s 0 (.object []) = some calls :=
  ⟨_, (performSearchJob_eq_some_iff_keys noText_plain
    (show searchJobCalls noText s 0 (.object []) =
      some ((SearchResult.object []).calls (addGeneralInformation noText s)) from rfl)).2 nofun⟩

theorem search_job_grammar_null : ∃ file s calls, honasStateLoad (some file) = some (.ok s) ∧
    performSearchJob noText s 0 (.object []) = some calls ∧
    (∃ members, Describes calls (.object members)) ∧
    performSearchJob noText s 0 (.object [(ascii "x", .null)]) = some calls := by
  obtain ⟨file, s, hload, -⟩ := exists_loaded
  obtain ⟨calls, hrun⟩ := exists_performSearchJob_empty s
  obtain ⟨hroot, hadd⟩ := search_job_grammar_iff noText s 0
  exact ⟨file, s, calls, hload, hrun, ((hroot _).2 (by decide) calls hrun).2,
    (hadd _ _ _ _ _ (addsUnknown_empty .null) hrun).2 trivial⟩

/-- `null` is accepted as a job, and the key `x` with the value 1 is not
    ignored. -/
theorem not_search_job_grammar : ∃ file s, honasStateLoad (some file) = some (.ok s) ∧
    (¬ ∀ job calls, performSearchJob noText s 0 job = some calls →
      (∃ members, job = .object members) ∧ ∃ members, Describes calls (.object members)) ∧
    ¬ ∀ key v job job' calls, AddsUnknown key v job job' →
      performSearchJob noText s 0 job = some calls →
      performSearchJob noText s 0 job' = some calls := by
  obtain ⟨file, s, hload, -⟩ := exists_loaded
  refine ⟨file, s, hload, fun hall => ?_, fun hall => ?_⟩
  · obtain ⟨⟨members, h⟩, -⟩ := hall .null [] rfl
    cases h
  · obtain ⟨calls, hrun⟩ := exists_performSearchJob_empty s
    cases (performSearchJob_eq_some_iff.1 (hall _ _ _ _ _ (addsUnknown_empty (.integer 1)) hrun)).1

end Honas

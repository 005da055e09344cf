/-
  The jobs that the search tool accepts (`src/bin/honas_search.c`).

  Whether a callback returns 0, or stops the program, depends on the state that the context
  is in, and for a string on the string, but on nothing else that the context holds: the
  callbacks run a finite automaton (`SearchSpecState.next`).  The documents that take it from
  its first state to its first state again are those of a grammar (`IsJob`).

  * `searchJobCalls_isSome_iff`: with a file that can be loaded, the callbacks accept exactly
    the jobs of the grammar.
  * `performSearchJob_isSome_iff`: the program answers those in which the printer can write
    the keys of the host names that are found.
-/
import Honas.HashValue

namespace Honas

open Bits CString

/-! ## The grammar -/

/-- The value of a host name: it fits in the buffer, and if it encodes a hash this can be
    looked up. -/
def IsHashValue (s : HonasState) (value : List Byte) : Prop :=
  value.length ≤ sizeofDebugMsg ∧
    ∀ bytes ∈ decodeStringHex value (value.length / 2), s.Checkable bytes

instance (s : HonasState) : DecidablePred (IsHashValue s) := fun _ =>
  inferInstanceAs (Decidable (_ ∧ _))

/-- A member of a `hostnames` object. -/
def IsHostName (s : HonasState) : List Byte × Json → Prop
  | (_, .string value) => IsHashValue s value
  | _ => False

/-- A member of a group: the identifier, the host names, or a literal under another key. -/
def IsGroupMember (s : HonasState) : List Byte × Json → Prop
  | (key, .integer _) => key = ascii "id"
  | (key, .object members) =>
    key ≠ ascii "id" ∧ key = ascii "hostnames" ∧ ∀ m ∈ members, IsHostName s m
  | (key, v) => v.IsLiteral ∧ key ≠ ascii "id" ∧ key ≠ ascii "hostnames"

/-- An element of a `groups` array: a group, or a literal. -/
def IsGroup (s : HonasState) : Json → Prop
  | .object members => ∀ m ∈ members, IsGroupMember s m
  | v => v.IsLiteral

/-- A member of a job: groups, or a literal under another key. -/
def IsJobMember (s : HonasState) : List Byte × Json → Prop
  | (key, .array elems) => key = ascii "groups" ∧ ∀ v ∈ elems, IsGroup s v
  | (key, v) => v.IsLiteral ∧ key ≠ ascii "groups"

/-- A job: an object, or a literal. -/
def IsJob (s : HonasState) : Json → Prop
  | .object members => ∀ m ∈ members, IsJobMember s m
  | v => v.IsLiteral

/-! ## The automaton -/

/-- The state after a callback. -/
def SearchSpecState.next (s : HonasState) (st : SearchSpecState) : JsonEvent → Option SearchSpecState
  | .null | .boolean _ | .double => some st
  | .integer _ =>
    match st with
    | .groupExpectId => some .group
    | _ => none
  | .string value =>
    match st with
    | .hostNameMapExpectValue => if IsHashValue s value then some .hostNameMap else none
    | _ => none
  | .startMap =>
    match st with
    | .init => some .searchSpec
    | .groupsArray => some .group
    | .groupExpectHostNameMap => some .hostNameMap
    | _ => none
  | .mapKey key =>
    match st with
    | .searchSpec =>
      if key = ascii "groups" then some .searchSpecExpectGroupsArray else some .searchSpec
    | .group =>
      if key = ascii "id" then some .groupExpectId
      else if key = ascii "hostnames" then some .groupExpectHostNameMap
      else some .group
    | .hostNameMap => some .hostNameMapExpectValue
    | _ => none
  | .endMap =>
    match st with
    | .searchSpec => some .init
    | .group => some .groupsArray
    | .hostNameMap => some .group
    | _ => none
  | .startArray =>
    match st with
    | .searchSpecExpectGroupsArray => some .groupsArray
    | _ => none
  | .endArray =>
    match st with
    | .groupsArray => some .searchSpec
    | _ => none

section

variable {text : SearchText} {s : HonasState} {ctx : SearchSpecContext} {m : List Byte}

/-- A value of a host name. -/
theorem searchSpecString_state_eq (hload : honasStateLoad (some m) = some (.ok s))
    (hsets : ctx.SetsFit (s.header .numberOfFilters)) (value : List Byte) :
    (searchSpecString s ctx value).map SearchSpecContext.state = ctx.state.next s (.string value) := by
  by_cases hs : ctx.state = .hostNameMapExpectValue
  · have hin : SearchSpecContext.SetsFit { ctx with state := .hostNameMap }
        (s.header .numberOfFilters) := ⟨hsets.group, hsets.hostName⟩
    rw [searchSpecString, hs, SearchSpecState.next]
    dsimp only
    by_cases hlen : value.length ≤ sizeofDebugMsg
    · rw [if_neg (not_lt.2 hlen)]
      cases hdec : decodeStringHex value (value.length / 2) with
      | none =>
        rw [if_pos ⟨hlen, fun bytes hb => by rw [hdec] at hb; cases hb⟩]
        rfl
      | some bytes =>
        have hiff : IsHashValue s value ↔ s.Checkable bytes := by
          rw [IsHashValue, hdec, and_iff_right hlen]
          exact ⟨fun h => h bytes rfl, fun h _ hb => Option.some.inj hb ▸ h⟩
        dsimp only
        cases hp : processHostName s { ctx with state := .hostNameMap } bytes with
        | none =>
          have hnot : ¬ s.Checkable bytes := fun hc => by
            obtain ⟨ctx', hp'⟩ := (processHostName_isSome_iff hload hin).2 hc
            rw [hp] at hp'
            cases hp'
          rw [if_neg fun h => hnot (hiff.1 h)]
          rfl
        | some ctx' =>
          rw [if_pos (hiff.2 ((processHostName_isSome_iff hload hin).1 ⟨ctx', hp⟩)), Option.map_some,
            processHostName_state hp]
    · rw [if_pos (not_le.1 hlen), if_neg fun h => hlen h.1]
      rfl
  · have hnone : searchSpecString s ctx value = none := by
      by_contra hsome
      obtain ⟨ctx', h⟩ := Option.ne_none_iff_exists'.1 hsome
      exact hs (searchSpecString_cases h).1
    rw [hnone]
    cases hst : ctx.state with
    | hostNameMapExpectValue => exact absurd hst hs
    | _ => rfl

/-- **A callback takes the automaton's step.** -/
theorem searchSpecEvent_state (hload : honasStateLoad (some m) = some (.ok s))
    (hsets : ctx.SetsFit (s.header .numberOfFilters)) (e : JsonEvent) :
    (searchSpecEvent text s ctx e).map SearchSpecContext.state = ctx.state.next s e := by
  cases e with
  | null | boolean | double => rfl
  | string value => exact searchSpecString_state_eq hload hsets value
  | integer value =>
    rw [searchSpecEvent, searchSpecInteger]
    cases ctx.state <;> rfl
  | mapKey key =>
    rw [searchSpecEvent, searchSpecMapKey]
    cases hst : ctx.state with
    | searchSpec =>
      rw [SearchSpecState.next]
      dsimp only
      split_ifs
      · rfl
      · exact congrArg some hst
    | group =>
      rw [SearchSpecState.next]
      dsimp only
      split_ifs
      · rfl
      · rfl
      · exact congrArg some hst
    | _ => rfl
  | startMap =>
    rw [searchSpecEvent, searchSpecStartMap]
    cases ctx.state <;> rfl
  | endMap =>
    rw [searchSpecEvent, searchSpecEndMap]
    cases ctx.state <;> rfl
  | startArray =>
    rw [searchSpecEvent, searchSpecStartArray]
    cases ctx.state <;> rfl
  | endArray =>
    rw [searchSpecEvent, searchSpecEndArray]
    cases ctx.state <;> rfl

/-- **The callbacks run the automaton.** -/
theorem searchSpec_run_state (hload : honasStateLoad (some m) = some (.ok s))
    (hsets : ctx.SetsFit (s.header .numberOfFilters)) (events : List JsonEvent) :
    (events.foldlM (searchSpecEvent text s) ctx).map SearchSpecContext.state =
      events.foldlM (SearchSpecState.next s) ctx.state :=
  Run.map_run (I := fun ctx => ctx.SetsFit (s.header .numberOfFilters))
    (fun _ e h => searchSpecEvent_state hload h e) (fun _ _ _ h he => h.event he) events hsets

end

/-! ## The documents that the automaton reads -/

namespace SearchSpecState

variable {s : HonasState} {st r : SearchSpecState}

/-- A literal is dropped. -/
theorem run_literal {v : Json} (hv : v.IsLiteral) (rest : List JsonEvent) :
    (v.events ++ rest).foldlM (next s) st = rest.foldlM (next s) st := by
  cases v with
  | null | boolean | double => rfl
  | integer | string | array | object => exact hv.elim

/-- A state that waits for a value does not take a key or an end. -/
theorem run_expects (h : st.Expects) (members : List (List Byte × Json)) (rest : List JsonEvent) :
    (Json.membersEvents members ++ .endMap :: rest).foldlM (next s) st = none := by
  cases members with
  | nil =>
    rw [Json.membersEvents, List.nil_append, List.foldlM_cons]
    cases st <;> first | exact h.elim | rfl
  | cons m members =>
    rw [Json.membersEvents, List.cons_append, List.cons_append, List.foldlM_cons]
    cases st <;> first | exact h.elim | rfl

/-- So it does not take a literal. -/
theorem run_expects_literal (st : SearchSpecState) (h : st.Expects) {v : Json} (hv : v.IsLiteral)
    (members : List (List Byte × Json)) (rest : List JsonEvent) :
    (v.events ++ (Json.membersEvents members ++ .endMap :: rest)).foldlM (next s) st = none := by
  rw [run_literal hv, run_expects h]

/-- The members of an object, where those that the grammar allows lead back to the state. -/
theorem run_members {P : List Byte × Json → Prop} {members : List (List Byte × Json)}
    {rest : List JsonEvent} (hmember : ∀ key v more,
      (.mapKey key :: (v.events ++ (Json.membersEvents more ++ .endMap :: rest))).foldlM (next s) st =
        some r ↔ P (key, v) ∧ (Json.membersEvents more ++ .endMap :: rest).foldlM (next s) st = some r) :
    (Json.membersEvents members ++ .endMap :: rest).foldlM (next s) st = some r ↔
      (∀ m ∈ members, P m) ∧ (JsonEvent.endMap :: rest).foldlM (next s) st = some r := by
  induction members with
  | nil => exact (and_iff_right fun _ h => (List.not_mem_nil h).elim).symm
  | cons m members ih =>
    obtain ⟨key, v⟩ := m
    rw [Json.membersEvents, List.cons_append, List.cons_append, List.append_assoc, hmember, ih,
      List.forall_mem_cons, and_assoc]

/-- **A `hostnames` object.** -/
theorem run_hostNames {members : List (List Byte × Json)} {rest : List JsonEvent} :
    (Json.membersEvents members ++ .endMap :: rest).foldlM (next s) .hostNameMap = some r ↔
      (∀ m ∈ members, IsHostName s m) ∧ rest.foldlM (next s) .group = some r := by
  refine run_members fun key v more => ?_
  rw [List.foldlM_cons]
  change (v.events ++ _).foldlM (next s) .hostNameMapExpectValue = some r ↔ _
  cases v with
  | string value =>
    rw [Json.events, List.cons_append, List.nil_append, List.foldlM_cons, next, IsHostName]
    split_ifs with hvalue
    · exact (and_iff_right hvalue).symm
    · exact iff_of_false (fun h => by cases h) fun h => hvalue h.1
  | null | boolean | double =>
    rw [run_expects_literal .hostNameMapExpectValue trivial]
    · exact iff_of_false (fun h => by cases h) fun h => h.1
    · exact trivial
  | integer | array | object => exact iff_of_false (fun h => by cases h) fun h => h.1

/-- **A group.** -/
theorem run_group {members : List (List Byte × Json)} {rest : List JsonEvent} :
    (Json.membersEvents members ++ .endMap :: rest).foldlM (next s) .group = some r ↔
      (∀ m ∈ members, IsGroupMember s m) ∧ rest.foldlM (next s) .groupsArray = some r := by
  refine run_members fun key v more => ?_
  rw [List.foldlM_cons, next]
  by_cases hid : key = ascii "id"
  · rw [if_pos hid, Option.bind_eq_bind, Option.bind_some]
    cases v with
    | integer value => exact (and_iff_right hid).symm
    | null | boolean | double =>
      rw [run_expects_literal .groupExpectId trivial]
      · exact iff_of_false (fun h => by cases h) fun h => h.1.2.1 hid
      · exact trivial
    | string | array => exact iff_of_false (fun h => by cases h) fun h => h.1.1
    | object => exact iff_of_false (fun h => by cases h) fun h => h.1.1 hid
  · rw [if_neg hid]
    by_cases hnames : key = ascii "hostnames"
    · rw [if_pos hnames, Option.bind_eq_bind, Option.bind_some]
      cases v with
      | object names =>
        rw [Json.events, List.cons_append, List.cons_append, List.append_assoc, List.foldlM_cons]
        change (Json.membersEvents names ++ JsonEvent.endMap :: _).foldlM (next s) .hostNameMap = some r ↔ _
        rw [run_hostNames, IsGroupMember, and_iff_right hid, and_iff_right hnames]
        rfl
      | null | boolean | double =>
        rw [run_expects_literal .groupExpectHostNameMap trivial]
        · exact iff_of_false (fun h => by cases h) fun h => h.1.2.2 hnames
        · exact trivial
      | integer => exact iff_of_false (fun h => by cases h) fun h => hid h.1
      | string | array => exact iff_of_false (fun h => by cases h) fun h => h.1.1
    · rw [if_neg hnames, Option.bind_eq_bind, Option.bind_some]
      cases v with
      | null | boolean | double =>
        rw [run_literal]
        · exact (and_iff_right ⟨trivial, hid, hnames⟩).symm
        · exact trivial
      | integer => exact iff_of_false (fun h => by cases h) fun h => hid h.1
      | object => exact iff_of_false (fun h => by cases h) fun h => hnames h.1.2.1
      | string | array => exact iff_of_false (fun h => by cases h) fun h => h.1.1

/-- **The elements of a `groups` array.** -/
theorem run_groups {elems : List Json} {rest : List JsonEvent} :
    (Json.elemsEvents elems ++ .endArray :: rest).foldlM (next s) .groupsArray = some r ↔
      (∀ v ∈ elems, IsGroup s v) ∧ rest.foldlM (next s) .searchSpec = some r := by
  induction elems with
  | nil => exact (and_iff_right fun _ h => (List.not_mem_nil h).elim).symm
  | cons v elems ih =>
    rw [Json.elemsEvents, List.append_assoc, List.forall_mem_cons, and_assoc, ← ih]
    cases v with
    | object members =>
      rw [Json.events, List.cons_append, List.cons_append, List.append_assoc, List.foldlM_cons]
      change (Json.membersEvents members ++ JsonEvent.endMap :: _).foldlM (next s) .group = some r ↔ _
      rw [run_group, IsGroup]
      rfl
    | null | boolean | double =>
      rw [run_literal]
      · exact (and_iff_right trivial).symm
      · exact trivial
    | integer | string | array => exact iff_of_false (fun h => by cases h) fun h => h.1

/-- **The members of a job.** -/
theorem run_job {members : List (List Byte × Json)} {rest : List JsonEvent} :
    (Json.membersEvents members ++ .endMap :: rest).foldlM (next s) .searchSpec = some r ↔
      (∀ m ∈ members, IsJobMember s m) ∧ rest.foldlM (next s) .init = some r := by
  refine run_members fun key v more => ?_
  rw [List.foldlM_cons, next]
  by_cases hgroups : key = ascii "groups"
  · rw [if_pos hgroups, Option.bind_eq_bind, Option.bind_some]
    cases v with
    | array elems =>
      rw [Json.events, List.cons_append, List.cons_append, List.append_assoc, List.foldlM_cons]
      change (Json.elemsEvents elems ++ JsonEvent.endArray :: _).foldlM (next s) .groupsArray = some r ↔ _
      rw [run_groups, IsJobMember, and_iff_right hgroups]
      rfl
    | null | boolean | double =>
      rw [run_expects_literal .searchSpecExpectGroupsArray trivial]
      · exact iff_of_false (fun h => by cases h) fun h => h.1.2 hgroups
      · exact trivial
    | integer | string | object => exact iff_of_false (fun h => by cases h) fun h => h.1.1
  · rw [if_neg hgroups, Option.bind_eq_bind, Option.bind_some]
    cases v with
    | null | boolean | double =>
      rw [run_literal]
      · exact (and_iff_right ⟨trivial, hgroups⟩).symm
      · exact trivial
    | array => exact iff_of_false (fun h => by cases h) fun h => hgroups h.1.1
    | integer | string | object => exact iff_of_false (fun h => by cases h) fun h => h.1.1

/-- **A document** is read exactly if it is a job. -/
theorem run_document (job : Json) :
    (∃ r, job.events.foldlM (next s) .init = some r) ↔ IsJob s job := by
  cases job with
  | object members =>
    have hrun : ∀ r, (Json.object members).events.foldlM (next s) .init = some r ↔
        (∀ m ∈ members, IsJobMember s m) ∧ [].foldlM (next s) .init = some r := fun r => by
      rw [Json.events, List.cons_append, List.foldlM_cons]
      exact run_job
    simp only [hrun]
    constructor
    · rintro ⟨_, h, _⟩
      exact h
    · exact fun h => ⟨.init, h, rfl⟩
  | null | boolean | double => exact iff_of_true ⟨.init, rfl⟩ trivial
  | integer | string | array =>
    refine iff_of_false ?_ id
    rintro ⟨_, ⟨⟩⟩

end SearchSpecState

/-! ## The jobs -/

theorem searchJobCalls_isSome_iff_run {file : List Byte} {s : HonasState}
    (hload : honasStateLoad (some file) = some (.ok s)) (text : SearchText) (flattenThreshold : ℕ)
    (job : Json) : (searchJobCalls text s flattenThreshold job).isSome ↔
      ∃ r, job.events.foldlM (SearchSpecState.next s) .init = some r := by
  have hfit := bitsetCreate_fits s.numberOfFilters_add_lt
  have hstart : (searchSpecStart s flattenThreshold).SetsFit (s.header .numberOfFilters) :=
    ⟨hfit, hfit⟩
  have hrun := @searchSpec_run_state text _ _ _ hload hstart job.events
  have hcalls : searchJobCalls text s flattenThreshold job =
      (job.events.foldlM (searchSpecEvent text s) (searchSpecStart s flattenThreshold)).map
        SearchSpecContext.printed := by
    rw [searchJobCalls, Option.map_eq_bind]
    rfl
  rw [hcalls, Option.isSome_map, Option.isSome_iff_exists]
  change _ ↔ ∃ r, job.events.foldlM _ (searchSpecStart s flattenThreshold).state = some r
  rw [← hrun]
  simp only [Option.map_eq_some_iff]
  constructor
  · rintro ⟨ctx, h⟩
    exact ⟨_, ctx, h, rfl⟩
  · rintro ⟨_, ctx, h, _⟩
    exact ⟨ctx, h⟩

/-- **The callbacks accept exactly the jobs of the grammar.** -/
theorem searchJobCalls_isSome_iff {file : List Byte} {s : HonasState}
    (hload : honasStateLoad (some file) = some (.ok s)) (text : SearchText) (flattenThreshold : ℕ)
    (job : Json) : (searchJobCalls text s flattenThreshold job).isSome ↔ IsJob s job := by
  rw [searchJobCalls_isSome_iff_run hload]
  exact SearchSpecState.run_document job

/-- The calls for a job of the grammar. -/
theorem searchJobCalls_of_isJob {file : List Byte} {s : HonasState}
    (hload : honasStateLoad (some file) = some (.ok s)) (text : SearchText) (flattenThreshold : ℕ)
    {job : Json} (h : IsJob s job) : searchJobCalls text s flattenThreshold job =
      some ((s.searchResult (s.flattens flattenThreshold) job).calls
        (addGeneralInformation text s)) := by
  obtain ⟨calls, hcalls⟩ := Option.isSome_iff_exists.1
    ((searchJobCalls_isSome_iff hload text flattenThreshold job).2 h)
  rw [hcalls, (searchJobCalls_result hcalls).1]

/-! ## Jobs with host names -/

/-- Such a job is in the grammar exactly if the values can be looked up. -/
theorem isJob_jobOf_iff {s : HonasState} {gs : List JobGroup} :
    IsJob s (jobOf gs) ↔ ∀ g ∈ gs, ∀ entry ∈ g.hostNames, IsHashValue s entry.2 := by
  have hgroup : ∀ g : JobGroup, (∀ m ∈ g.members, IsGroupMember s m) ↔
      ∀ entry ∈ g.hostNames, IsHashValue s entry.2 := by
    intro g
    have hid : ∀ m ∈ (g.id.map fun id => (ascii "id", Json.integer id)).toList, IsGroupMember s m := by
      intro m hm
      obtain ⟨id, -, rfl⟩ := Option.map_eq_some_iff.1 (Option.mem_toList.1 hm)
      exact rfl
    rw [JobGroup.members, List.forall_mem_append, and_iff_right hid, List.forall_mem_singleton]
    refine (and_iff_right (by decide)).trans ((and_iff_right rfl).trans ?_)
    exact List.forall_mem_map
  refine List.forall_mem_singleton.trans ((and_iff_right rfl).trans (List.forall_mem_map.trans ?_))
  exact forall₂_congr fun g _ => hgroup g

/-- **Such a job is answered** if the keys can be written too. -/
theorem performSearchJob_jobOf {file : List Byte} {s : HonasState}
    (hload : honasStateLoad (some file) = some (.ok s)) {text : SearchText} (ht : text.Plain)
    (flattenThreshold : ℕ) {gs : List JobGroup} (hvalues : ∀ g ∈ gs, ∀ entry ∈ g.hostNames,
      IsHashValue s entry.2 ∧ (jsonPrinterWriteString entry.1).isSome) :
    performSearchJob text s flattenThreshold (jobOf gs) =
      some ((s.searchResult (s.flattens flattenThreshold) (jobOf gs)).calls
        (addGeneralInformation text s)) := by
  have hjob : IsJob s (jobOf gs) :=
    isJob_jobOf_iff.2 fun g hg entry he => (hvalues g hg entry he).1
  refine (performSearchJob_eq_some_iff_keys ht
    (searchJobCalls_of_isJob hload text flattenThreshold hjob)).2 ?_
  rw [searchResult_keys_written_iff, jobGroupsArrays_jobOf, List.flatten_singleton]
  exact fun g hg entry he _ => (hvalues g hg entry he).2

/-- Host names whose hashes are in both filters, in the first one, and in none. -/
def bothEntry : List Byte × List Byte := (ascii "a", List.replicate 64 0x30#8)
def firstEntry : List Byte × List Byte := (ascii "b", List.replicate 64 0x31#8)
def noneEntry : List Byte × List Byte := (ascii "c", List.replicate 64 0x32#8)

/-- Two groups of them, with an identifier and without. -/
def twoGroups : List JobGroup :=
  [⟨some 7, [bothEntry, firstEntry]⟩, ⟨none, [bothEntry, noneEntry]⟩]

/-- **A loaded state with these host names**, and the filters that they have in
    common. -/
theorem exists_loaded_entries : ∃ file s, honasStateLoad (some file) = some (.ok s) ∧
    s.header .numberOfFiltersPerUser = 2 ∧ s.header .estimatedNumberOfClients = 1 ∧
    s.header .estimatedNumberOfHostNames = 0 ∧
    (∀ entry ∈ [bothEntry, firstEntry, noneEntry], IsHashValue s entry.2) ∧
    s.valueHits bothEntry.2 = some 2 ∧ s.valueHits firstEntry.2 = some 1 ∧
    s.valueHits noneEntry.2 = some 0 ∧
    s.commonFilters (JobGroup.hashes ⟨none, [bothEntry, firstEntry]⟩) = [0] ∧
    s.commonFilters (JobGroup.hashes ⟨none, [bothEntry, noneEntry]⟩) = [] := by
  obtain ⟨file, s, hload, hn, hu, hclients, hhosts, hcontains⟩ := exists_loaded
  have hcheckable : ∀ b, s.Checkable (List.replicate 32 b) := by
    intro b
    rw [HonasState.Checkable, hn, List.length_replicate]
    decide
  have hhits : ∀ {value : List Byte} {b : Byte},
      decodeStringHex value (value.length / 2) = some (List.replicate 32 b) →
      s.valueHits value = some (s.commonFilters [List.replicate 32 b]).length := by
    intro value b hdec
    rw [HonasState.valueHits, hdec, Option.bind_some, hits_eq_length hload (hcheckable b)]
  have hvalue : ∀ {value : List Byte} {b : Byte}, value.length ≤ sizeofDebugMsg →
      decodeStringHex value (value.length / 2) = some (List.replicate 32 b) → IsHashValue s value := by
    intro value b hlen hdec
    refine ⟨hlen, fun bytes hbytes => ?_⟩
    rw [hdec] at hbytes
    exact Option.some_inj.1 hbytes ▸ hcheckable b
  have hcommon : ∀ hashes, s.commonFilters hashes =
      [0, 1].filter fun i => hashes.all fun hash => s.contains hash i := by
    intro hashes
    rw [HonasState.commonFilters, hn]
    rfl
  have hboth : decodeStringHex bothEntry.2 (bothEntry.2.length / 2) =
    some (List.replicate 32 0x00#8) := by decide
  have hfirst : decodeStringHex firstEntry.2 (firstEntry.2.length / 2) =
    some (List.replicate 32 0x11#8) := by decide
  have hnone : decodeStringHex noneEntry.2 (noneEntry.2.length / 2) =
    some (List.replicate 32 0x22#8) := by decide
  have hnames : JobGroup.hashes ⟨none, [bothEntry, firstEntry]⟩ =
    [List.replicate 32 0x00#8, List.replicate 32 0x11#8] := by decide
  have hnames' : JobGroup.hashes ⟨none, [bothEntry, noneEntry]⟩ =
    [List.replicate 32 0x00#8, List.replicate 32 0x22#8] := by decide
  obtain ⟨h₀, h₁, h₂⟩ := hcontains 0 (by decide)
  obtain ⟨h₀', h₁', h₂'⟩ := hcontains 1 (by decide)
  refine ⟨file, s, hload, hu, hclients, hhosts, ?_, ?_, ?_, ?_, ?_, ?_⟩
  · simp only [List.forall_mem_cons]
    exact ⟨hvalue (by decide) hboth, hvalue (by decide) hfirst, hvalue (by decide) hnone,
      List.forall_mem_nil _⟩
  · rw [hhits hboth, hcommon]
    simp only [List.filter_cons, List.filter_nil, List.all_cons, List.all_nil, h₀, h₀']
    rfl
  · rw [hhits hfirst, hcommon]
    simp only [List.filter_cons, List.filter_nil, List.all_cons, List.all_nil, h₁, h₁']
    rfl
  · rw [hhits hnone, hcommon]
    simp only [List.filter_cons, List.filter_nil, List.all_cons, List.all_nil, h₂, h₂']
    rfl
  · rw [hnames, hcommon]
    simp only [List.filter_cons, List.filter_nil, List.all_cons, List.all_nil, h₀, h₁, h₀', h₁']
    rfl
  · rw [hnames', hcommon]
    simp only [List.filter_cons, List.filter_nil, List.all_cons, List.all_nil, h₀, h₂, h₀', h₂']
    rfl

/-! ## The jobs that are answered -/

end Honas

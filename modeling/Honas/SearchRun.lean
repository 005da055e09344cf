/-
  The callbacks of the search tool over a document (`src/bin/honas_search.c`).

  `JobGroup` is what a job asks for in a group.  An accepted job is followed
  through its document, one lemma for each kind of value: what every callback
  keeps (`GroupInvariant`, `ArrayInvariant`, `JobInvariant`) holds behind any of
  the members that are read.  Everything that is proved about accepted jobs
  gives such invariants and uses these lemmas.
-/
import Honas.Search

namespace Honas

open Bits CString

/-! ## Jobs -/

/-- A group of a job: its identifier, and the host names with their hashes. -/
structure JobGroup where
  id : Option (BitVec 64)
  hostNames : List (List Byte × List Byte)

namespace JobGroup

/-- The entries of a `hostnames` object. -/
def entries (members : List (List Byte × Json)) : List (List Byte × List Byte) :=
  members.filterMap fun
    | (key, .string value) => some (key, value)
    | _ => none

/-- Add a member of a group object. -/
def addMember (g : JobGroup) : List Byte × Json → JobGroup
  | (key, .integer value) => if key = ascii "id" then { g with id := some value } else g
  | (key, .object members) =>
    if key = ascii "hostnames" then { g with hostNames := g.hostNames ++ entries members } else g
  | _ => g

/-- The group that an object describes. -/
def ofMembers (members : List (List Byte × Json)) : JobGroup :=
  members.foldl addMember ⟨none, []⟩

end JobGroup

/-- The groups of a `groups` array. -/
def jobGroups (elems : List Json) : List JobGroup :=
  elems.filterMap fun
    | .object members => some (JobGroup.ofMembers members)
    | _ => none

/-- The groups of a member of a job. -/
def jobArray : List Byte × Json → Option (List JobGroup)
  | (key, .array elems) => if key = ascii "groups" then some (jobGroups elems) else none
  | _ => none

/-- The `groups` arrays among the members of a job. -/
def jobArrays (members : List (List Byte × Json)) : List (List JobGroup) :=
  members.filterMap jobArray

/-- The `groups` arrays of a job. -/
def jobGroupsArrays : Json → List (List JobGroup)
  | .object members => jobArrays members
  | _ => []

/-- The members of a group object. -/
def JobGroup.members (g : JobGroup) : List (List Byte × Json) :=
  (g.id.map fun id => (ascii "id", Json.integer id)).toList ++
    [(ascii "hostnames", .object (g.hostNames.map fun entry => (entry.1, .string entry.2)))]

/-- A job with these groups. -/
def jobOf (gs : List JobGroup) : Json :=
  .object [(ascii "groups", .array (gs.map fun g => .object g.members))]

theorem JobGroup.entries_map (names : List (List Byte × List Byte)) :
    JobGroup.entries (names.map fun entry => (entry.1, Json.string entry.2)) = names := by
  rw [JobGroup.entries, List.filterMap_map]
  exact List.filterMap_some

theorem JobGroup.ofMembers_members (g : JobGroup) : JobGroup.ofMembers g.members = g := by
  obtain ⟨id, names⟩ := g
  cases id with
  | none =>
    rw [JobGroup.ofMembers, JobGroup.members, Option.map_none, Option.toList_none, List.nil_append,
      List.foldl_cons, List.foldl_nil, JobGroup.addMember, if_pos rfl, JobGroup.entries_map]
    rfl
  | some id =>
    rw [JobGroup.ofMembers, JobGroup.members, Option.map_some, Option.toList_some,
      List.singleton_append, List.foldl_cons, List.foldl_cons, List.foldl_nil, JobGroup.addMember,
      if_pos rfl, JobGroup.addMember, if_pos rfl, JobGroup.entries_map]
    rfl

/-- **The groups of such a job.** -/
theorem jobGroupsArrays_jobOf (gs : List JobGroup) : jobGroupsArrays (jobOf gs) = [gs] := by
  have hgroups : jobGroups (gs.map fun g => Json.object g.members) = gs := by
    rw [jobGroups, List.filterMap_map]
    refine (List.filterMap_congr fun g _ => ?_).trans List.filterMap_some
    exact congrArg some g.ofMembers_members
  rw [jobOf, jobGroupsArrays, jobArrays, List.filterMap_cons_some (b := gs), List.filterMap_nil]
  rw [jobArray, if_pos rfl, hgroups]

/-! ## The callbacks over a document -/

section Callbacks

variable {text : SearchText} {s : HonasState} {ctx : SearchSpecContext}

/-- The states that wait for a value of a certain kind. -/
def SearchSpecState.Expects : SearchSpecState → Prop
  | .searchSpecExpectGroupsArray | .groupExpectId | .groupExpectHostNameMap
  | .hostNameMapExpectValue => True
  | _ => False

/-- When the value was dropped, the next key or end is an error. -/
theorem stuck (h : ctx.state.Expects) (members : List (List Byte × Json)) (rest : List JsonEvent) :
    (Json.membersEvents members ++ .endMap :: rest).foldlM (searchSpecEvent text s) ctx = none := by
  have hend : searchSpecEndMap s ctx = none := by
    rw [searchSpecEndMap]
    cases hs : ctx.state <;> simp_all [SearchSpecState.Expects]
  have hkey : ∀ key, searchSpecMapKey ctx key = none := by
    intro key
    rw [searchSpecMapKey]
    cases hs : ctx.state <;> simp_all [SearchSpecState.Expects]
  cases members with
  | nil =>
    rw [Json.membersEvents, List.nil_append, List.foldlM_cons, searchSpecEvent, hend]
    rfl
  | cons m members =>
    rw [Json.membersEvents, List.cons_append, List.cons_append, List.foldlM_cons, searchSpecEvent,
      hkey]
    rfl

/-- A literal is dropped. -/
theorem foldlM_literal {v : Json} (hv : v.IsLiteral) (rest : List JsonEvent) :
    (v.events ++ rest).foldlM (searchSpecEvent text s) ctx =
      rest.foldlM (searchSpecEvent text s) ctx := by
  cases v with
  | null | boolean | double => rfl
  | integer | string | array | object => exact hv.elim

/-- A value that is waited for is not dropped. -/
theorem not_dropped {v : Json} (hv : v.IsLiteral) {members : List (List Byte × Json)}
    {rest : List JsonEvent} {r : SearchSpecContext}
    (h : (v.events ++ (Json.membersEvents members ++ .endMap :: rest)).foldlM
      (searchSpecEvent text s) ctx = some r) : ¬ ctx.state.Expects := by
  intro hs
  rw [foldlM_literal hv, stuck hs] at h
  cases h

/-- The value of an unknown key is a literal. -/
theorem foldlM_ignored {v : Json} {rest : List JsonEvent} {r : SearchSpecContext}
    (hs : ctx.state = .searchSpec ∨ ctx.state = .group)
    (h : (v.events ++ rest).foldlM (searchSpecEvent text s) ctx = some r) :
    v.IsLiteral ∧ rest.foldlM (searchSpecEvent text s) ctx = some r := by
  cases v with
  | null | boolean | double => exact ⟨trivial, h⟩
  | integer n =>
    rw [Json.events, List.cons_append, List.foldlM_cons, searchSpecEvent, searchSpecInteger] at h
    rcases hs with hs | hs <;> simp [hs] at h
  | string str =>
    rw [Json.events, List.cons_append, List.foldlM_cons, searchSpecEvent, searchSpecString] at h
    rcases hs with hs | hs <;> simp [hs] at h
  | array elems =>
    rw [Json.events, List.cons_append, List.cons_append, List.foldlM_cons, searchSpecEvent,
      searchSpecStartArray] at h
    rcases hs with hs | hs <;> simp [hs] at h
  | object members =>
    rw [Json.events, List.cons_append, List.cons_append, List.foldlM_cons, searchSpecEvent,
      searchSpecStartMap] at h
    rcases hs with hs | hs <;> simp [hs] at h

/-! ### Inside a group -/

section SetFiltersHit

variable (ctx : SearchSpecContext) (set : Option Bitset)

/-- Storing the filters that are hit changes nothing else. -/
theorem setFiltersHit_eq : ∃ group hostName, ctx.setFiltersHit set =
    { ctx with groupFiltersHit := group, hostNameFiltersHit := hostName } := by
  cases set with
  | none => exact ⟨_, _, rfl⟩
  | some set =>
    rw [SearchSpecContext.setFiltersHit]
    split_ifs
    · exact ⟨_, _, rfl⟩
    · exact ⟨_, _, rfl⟩

@[simp] theorem setFiltersHit_state : (ctx.setFiltersHit set).state = ctx.state := by
  obtain ⟨_, _, h⟩ := setFiltersHit_eq ctx set
  rw [h]

@[simp] theorem setFiltersHit_flattenResults :
    (ctx.setFiltersHit set).flattenResults = ctx.flattenResults := by
  obtain ⟨_, _, h⟩ := setFiltersHit_eq ctx set
  rw [h]

@[simp] theorem setFiltersHit_printed : (ctx.setFiltersHit set).printed = ctx.printed := by
  obtain ⟨_, _, h⟩ := setFiltersHit_eq ctx set
  rw [h]

@[simp] theorem setFiltersHit_groupId : (ctx.setFiltersHit set).groupId = ctx.groupId := by
  obtain ⟨_, _, h⟩ := setFiltersHit_eq ctx set
  rw [h]

@[simp] theorem setFiltersHit_groupHasResults :
    (ctx.setFiltersHit set).groupHasResults = ctx.groupHasResults := by
  obtain ⟨_, _, h⟩ := setFiltersHit_eq ctx set
  rw [h]

@[simp] theorem setFiltersHit_groupAllHostNamesFound :
    (ctx.setFiltersHit set).groupAllHostNamesFound = ctx.groupAllHostNamesFound := by
  obtain ⟨_, _, h⟩ := setFiltersHit_eq ctx set
  rw [h]

@[simp] theorem setFiltersHit_hostNameKey :
    (ctx.setFiltersHit set).hostNameKey = ctx.hostNameKey := by
  obtain ⟨_, _, h⟩ := setFiltersHit_eq ctx set
  rw [h]

end SetFiltersHit

/-- What a host name that is found adds to the output. -/
def SearchSpecContext.printHostName (ctx : SearchSpecContext) (hits : ℕ) : SearchSpecContext :=
  ctx.print [.objectPairUint32 (truncate ctx.hostNameKey) hits]

/-- **What a host name with a decoded hash does**: nothing is found, it is the
    first result of the group, a later one, or one after a host name was not
    found. -/
theorem processHostName_cases {bytes : List Byte} {ctx' : SearchSpecContext}
    (h : processHostName s ctx bytes = some ctx') :
    ∃ hits set, honasStateCheckHostNameLookups s bytes ctx.filtersHit = some (hits, set) ∧
      ((ctx.reportedHits s hits = 0 ∧
          ctx' = { ctx.setFiltersHit set with groupAllHostNamesFound := false }) ∨
        (0 < ctx.reportedHits s hits ∧ ctx.groupHasResults = false ∧
          ctx' = SearchSpecContext.printHostName { (ctx.setFiltersHit set).print
            [.objectBegin, .objectKey (ascii "hostnames"), .objectBegin] with
              groupHasResults := true } (ctx.reportedHits s hits)) ∨
        (0 < ctx.reportedHits s hits ∧ ctx.groupHasResults = true ∧
          ctx.groupAllHostNamesFound = true ∧ ∃ both,
            bitsetBitwiseAnd (ctx.setFiltersHit set).groupFiltersHit
              (ctx.setFiltersHit set).hostNameFiltersHit = some both ∧
            ctx' = SearchSpecContext.printHostName { ctx.setFiltersHit set with
              groupFiltersHit := both } (ctx.reportedHits s hits)) ∨
        (0 < ctx.reportedHits s hits ∧ ctx.groupHasResults = true ∧
          ctx.groupAllHostNamesFound = false ∧
          ctx' = (ctx.setFiltersHit set).printHostName (ctx.reportedHits s hits))) := by
  rw [processHostName] at h
  simp only [Option.bind_eq_bind, Option.bind_eq_some_iff] at h
  obtain ⟨⟨hits, set⟩, hc, h⟩ := h
  refine ⟨hits, set, hc, ?_⟩
  have hrep : (ctx.setFiltersHit set).reportedHits s hits = ctx.reportedHits s hits := by
    rw [SearchSpecContext.reportedHits, SearchSpecContext.reportedHits, setFiltersHit_flattenResults]
  rw [hrep] at h
  by_cases hpos : 0 < ctx.reportedHits s hits
  · rw [if_pos hpos] at h
    by_cases hres : ctx.groupHasResults = true
    · rw [if_neg (not_not.2 (by simpa using hres))] at h
      by_cases hall : ctx.groupAllHostNamesFound = true
      · rw [if_pos (by simpa using hall)] at h
        obtain ⟨both, hboth, h⟩ := Option.bind_eq_some_iff.1 h
        rw [Option.bind_some, Option.some_inj] at h
        exact .inr (.inr (.inl ⟨hpos, hres, hall, both, hboth, h.symm⟩))
      · rw [if_neg (by simpa using hall), Option.bind_some, Option.some_inj] at h
        exact .inr (.inr (.inr ⟨hpos, hres, by simpa using hall, h.symm⟩))
    · rw [if_pos (by simpa using hres), Option.bind_some, Option.some_inj] at h
      exact .inr (.inl ⟨hpos, by simpa using hres, h.symm⟩)
  · rw [if_neg hpos, Option.some_inj] at h
    exact .inl ⟨Nat.eq_zero_of_not_pos hpos, h.symm⟩

theorem processHostName_state {bytes : List Byte} {ctx' : SearchSpecContext}
    (h : processHostName s ctx bytes = some ctx') : ctx'.state = ctx.state := by
  obtain ⟨hits, set, -, hcase⟩ := processHostName_cases h
  rcases hcase with ⟨-, rfl⟩ | ⟨-, -, rfl⟩ | ⟨-, -, -, both, -, rfl⟩ | ⟨-, -, -, rfl⟩
  all_goals exact setFiltersHit_state ctx set

/-- **What the value of a host name does**: its hash is looked up, or it does
    not decode. -/
theorem searchSpecString_cases {value : List Byte} {ctx' : SearchSpecContext}
    (h : searchSpecString s ctx value = some ctx') :
    ctx.state = .hostNameMapExpectValue ∧ value.length ≤ sizeofDebugMsg ∧
      ((decodeStringHex value (value.length / 2) = none ∧
          ctx' = { ctx with state := .hostNameMap }) ∨
        ∃ bytes, decodeStringHex value (value.length / 2) = some bytes ∧
          processHostName s { ctx with state := .hostNameMap } bytes = some ctx') := by
  rw [searchSpecString] at h
  cases hs : ctx.state <;> rw [hs] at h
  case hostNameMapExpectValue =>
    dsimp only at h
    split_ifs at h with hlen
    refine ⟨rfl, by omega, ?_⟩
    cases hd : decodeStringHex value (value.length / 2) with
    | none =>
      rw [hd, Option.some_inj] at h
      exact .inl ⟨rfl, h.symm⟩
    | some bytes =>
      rw [hd] at h
      exact .inr ⟨bytes, rfl, h⟩
  all_goals cases h

/-- A value of a host name leaves the map open. -/
theorem searchSpecString_state {value : List Byte} {ctx' : SearchSpecContext}
    (h : searchSpecString s ctx value = some ctx') : ctx'.state = .hostNameMap := by
  obtain ⟨-, -, ⟨-, rfl⟩ | ⟨bytes, -, h⟩⟩ := searchSpecString_cases h
  · rfl
  · rw [processHostName_state h]

/-- What the callbacks inside a group keep, for the members read so far. -/
structure GroupInvariant (s : HonasState) (I : JobGroup → SearchSpecContext → Prop) : Prop where
  moved : ∀ {g ctx} (key : List Byte) (state : SearchSpecState), I g ctx →
    I g { ctx with hostNameKey := key, state := state }
  identified : ∀ {g ctx} (id : BitVec 64), I g ctx →
    I { g with id := some id } { ctx with groupId := id, state := .group }
  named : ∀ {g ctx value ctx'}, I g ctx → ctx.state = .hostNameMapExpectValue →
    searchSpecString s ctx value = some ctx' →
    I { g with hostNames := g.hostNames ++ [(ctx.hostNameKey, value)] } ctx'

variable {I : JobGroup → SearchSpecContext → Prop} {g : JobGroup} {r : SearchSpecContext}

/-- **The members of a `hostnames` object.** -/
theorem GroupInvariant.hostNameMap (hI : GroupInvariant s I) {members more : List (List Byte × Json)}
    {rest : List JsonEvent} (h : I g ctx) (hs : ctx.state = .hostNameMap)
    (hr : (Json.membersEvents (members ++ more) ++ .endMap :: rest).foldlM
      (searchSpecEvent text s) ctx = some r) :
    ∃ ctx', (Json.membersEvents members).foldlM (searchSpecEvent text s) ctx = some ctx' ∧
      I { g with hostNames := g.hostNames ++ JobGroup.entries members } ctx' ∧
      ctx'.state = .hostNameMap := by
  induction members generalizing ctx g with
  | nil =>
    refine ⟨ctx, rfl, ?_, hs⟩
    rw [show JobGroup.entries [] = [] from rfl, List.append_nil]
    exact h
  | cons m members ih =>
    obtain ⟨key, v⟩ := m
    rw [List.cons_append, Json.membersEvents, List.cons_append, List.cons_append, List.append_assoc,
      List.foldlM_cons, searchSpecEvent, searchSpecMapKey, hs] at hr
    dsimp only [Option.bind_eq_bind, Option.bind_some] at hr
    by_cases hv : v.IsLiteral
    · exact (not_dropped hv hr trivial).elim
    cases v with
    | string value =>
      rw [Json.events, List.cons_append, List.nil_append, List.foldlM_cons, searchSpecEvent] at hr
      obtain ⟨ctx₂, hv, hr⟩ := Option.bind_eq_some_iff.1 hr
      obtain ⟨ctx', he, h', hs'⟩ := ih (hI.named (hI.moved key _ h) rfl hv)
        (searchSpecString_state hv) hr
      refine ⟨ctx', ?_, ?_, hs'⟩
      · rw [Json.membersEvents, Json.events, List.cons_append, List.cons_append, List.nil_append,
          List.foldlM_cons, searchSpecEvent, searchSpecMapKey, hs]
        dsimp only [Option.bind_eq_bind, Option.bind_some]
        rw [List.foldlM_cons, searchSpecEvent, hv]
        exact he
      · rw [List.append_assoc] at h'
        exact h'
    | null | boolean | double => exact absurd trivial hv
    | integer | array | object => cases hr

/-- The events of a member: its key, and the events of its value. -/
theorem member_events {key : List Byte} {v : Json} {members more : List (List Byte × Json)}
    {rest : List JsonEvent}
    (hr : (Json.membersEvents ((key, v) :: members ++ more) ++ .endMap :: rest).foldlM
      (searchSpecEvent text s) ctx = some r) :
    ∃ ctx₁, searchSpecMapKey ctx key = some ctx₁ ∧
      (v.events ++ (Json.membersEvents (members ++ more) ++ .endMap :: rest)).foldlM
        (searchSpecEvent text s) ctx₁ = some r ∧
      (v.events ++ Json.membersEvents members).foldlM (searchSpecEvent text s) ctx₁ =
        (Json.membersEvents ((key, v) :: members)).foldlM (searchSpecEvent text s) ctx := by
  rw [List.cons_append, Json.membersEvents, List.cons_append, List.cons_append, List.append_assoc,
    List.foldlM_cons, searchSpecEvent] at hr
  obtain ⟨ctx₁, hk, hr⟩ := Option.bind_eq_some_iff.1 hr
  refine ⟨ctx₁, hk, hr, ?_⟩
  rw [Json.membersEvents, List.cons_append, List.foldlM_cons, searchSpecEvent, hk]
  rfl

/-- **The members of a group.** -/
theorem GroupInvariant.members (hI : GroupInvariant s I) {members more : List (List Byte × Json)}
    {rest : List JsonEvent} (h : I g ctx) (hs : ctx.state = .group)
    (hr : (Json.membersEvents (members ++ more) ++ .endMap :: rest).foldlM
      (searchSpecEvent text s) ctx = some r) :
    ∃ ctx', (Json.membersEvents members).foldlM (searchSpecEvent text s) ctx = some ctx' ∧
      I (members.foldl JobGroup.addMember g) ctx' ∧ ctx'.state = .group := by
  induction members generalizing ctx g with
  | nil => exact ⟨ctx, rfl, h, hs⟩
  | cons m members ih =>
    obtain ⟨key, v⟩ := m
    obtain ⟨ctx₁, hk, hr, hstep⟩ := member_events hr
    rw [← hstep, List.foldl_cons]
    rw [searchSpecMapKey, hs] at hk
    dsimp only at hk
    by_cases hid : key = ascii "id"
    · rw [if_pos hid, Option.some_inj] at hk
      subst hk
      by_cases hv : v.IsLiteral
      · exact (not_dropped hv hr trivial).elim
      cases v with
      | integer value =>
        have hadd : g.addMember (key, .integer value) = { g with id := some value } := by
          rw [JobGroup.addMember, if_pos hid]
        rw [hadd]
        exact ih (hI.identified value (hI.moved ctx.hostNameKey .groupExpectId h)) rfl hr
      | null | boolean | double => exact absurd trivial hv
      | string | array | object => cases hr
    · rw [if_neg hid] at hk
      by_cases hnames : key = ascii "hostnames"
      · rw [if_pos hnames, Option.some_inj] at hk
        subst hk
        by_cases hv : v.IsLiteral
        · exact (not_dropped hv hr trivial).elim
        cases v with
        | object names =>
          have hadd : g.addMember (key, .object names) =
              { g with hostNames := g.hostNames ++ JobGroup.entries names } := by
            rw [JobGroup.addMember, if_pos hnames]
          rw [Json.events, List.cons_append, List.cons_append, List.append_assoc, List.foldlM_cons,
            searchSpecEvent, searchSpecStartMap] at hr ⊢
          dsimp only [Option.bind_eq_bind, Option.bind_some] at hr ⊢
          rw [← List.append_nil names] at hr
          obtain ⟨ctx₂, he₂, h₂, hs₂⟩ :=
            hI.hostNameMap (hI.moved ctx.hostNameKey .hostNameMap h) rfl hr
          rw [List.append_nil] at hr
          rw [List.foldlM_append, he₂] at hr ⊢
          dsimp only [Option.bind_eq_bind, Option.bind_some] at hr ⊢
          rw [List.cons_append, List.nil_append, List.foldlM_cons, searchSpecEvent, searchSpecEndMap,
            hs₂] at hr ⊢
          rw [hadd]
          exact ih (hI.moved ctx₂.hostNameKey .group h₂) rfl hr
        | null | boolean | double => exact absurd trivial hv
        | integer | string | array => cases hr
      · rw [if_neg hnames, Option.some_inj] at hk
        subst hk
        obtain ⟨hv, hr⟩ := foldlM_ignored (.inr hs) hr
        have hadd : g.addMember (key, v) = g := by
          cases v with
          | null | boolean | double | string | array => rfl
          | integer => rw [JobGroup.addMember, if_neg hid]
          | object => rw [JobGroup.addMember, if_neg hnames]
        rw [hadd, foldlM_literal hv]
        exact ih h hs hr

theorem GroupInvariant.and {I' : JobGroup → SearchSpecContext → Prop} (h : GroupInvariant s I)
    (h' : GroupInvariant s I') : GroupInvariant s fun g ctx => I g ctx ∧ I' g ctx :=
  ⟨fun key state hi => ⟨h.moved key state hi.1, h'.moved key state hi.2⟩,
    fun id hi => ⟨h.identified id hi.1, h'.identified id hi.2⟩,
    fun hi hs hv => ⟨h.named hi.1 hs hv, h'.named hi.2 hs hv⟩⟩

/-- Nothing is an invariant. -/
theorem groupInvariant_true : GroupInvariant s fun _ _ => True :=
  ⟨fun _ _ _ => trivial, fun _ _ => trivial, fun _ _ _ => trivial⟩

/-! ### Arrays of groups -/

/-- What a group keeps, for the groups read so far. -/
def ArrayInvariant (text : SearchText) (s : HonasState)
    (J : List JobGroup → SearchSpecContext → Prop) : Prop :=
  ∀ {gs ctx members ctx'}, J gs ctx → ctx.state = .groupsArray →
    (Json.object members).events.foldlM (searchSpecEvent text s) ctx = some ctx' →
    J (gs ++ [JobGroup.ofMembers members]) ctx'

/-- The context at the start of a group. -/
def SearchSpecContext.startGroup (ctx : SearchSpecContext) : SearchSpecContext :=
  { ctx with
    groupId := 0, groupHasResults := false, groupAllHostNamesFound := true, state := .group }

/-- **A group**: its members, and then its end. -/
theorem GroupInvariant.group (hI : GroupInvariant s I) {members : List (List Byte × Json)}
    (h : I ⟨none, []⟩ ctx.startGroup) (hs : ctx.state = .groupsArray)
    (hr : (Json.object members).events.foldlM (searchSpecEvent text s) ctx = some r) :
    ∃ ctx', I (JobGroup.ofMembers members) ctx' ∧ ctx'.state = .group ∧
      searchSpecEndMap s ctx' = some r := by
  rw [Json.events, List.cons_append, List.foldlM_cons, searchSpecEvent, searchSpecStartMap, hs] at hr
  dsimp only [Option.bind_eq_bind, Option.bind_some] at hr
  rw [← List.append_nil members] at hr
  obtain ⟨ctx', he, h', hs'⟩ := hI.members h rfl hr
  rw [List.append_nil] at hr
  rw [List.foldlM_append] at hr
  obtain ⟨ctx₁, he₁, hr⟩ := Option.bind_eq_some_iff.1 hr
  obtain rfl : ctx' = ctx₁ := Option.some_inj.1 (he.symm.trans he₁)
  rw [List.foldlM_cons, searchSpecEvent] at hr
  obtain ⟨ctx₂, hend, hr⟩ := Option.bind_eq_some_iff.1 hr
  rw [List.foldlM_nil] at hr
  exact ⟨ctx', h', hs', hend.trans hr⟩

theorem searchSpecEndMap_group {ctx' : SearchSpecContext} (hs : ctx.state = .group)
    (h : searchSpecEndMap s ctx = some ctx') : ctx'.state = .groupsArray := by
  rw [searchSpecEndMap, hs] at h
  dsimp only at h
  rw [← Option.some_inj.1 h]

variable {J : List JobGroup → SearchSpecContext → Prop} {gs : List JobGroup}

/-- **The elements of a `groups` array.** -/
theorem ArrayInvariant.elems (hJ : ArrayInvariant text s J) {elems more : List Json}
    {rest : List JsonEvent} (h : J gs ctx) (hs : ctx.state = .groupsArray)
    (hr : (Json.elemsEvents (elems ++ more) ++ .endArray :: rest).foldlM
      (searchSpecEvent text s) ctx = some r) :
    ∃ ctx', (Json.elemsEvents elems).foldlM (searchSpecEvent text s) ctx = some ctx' ∧
      J (gs ++ jobGroups elems) ctx' ∧ ctx'.state = .groupsArray := by
  induction elems generalizing ctx gs with
  | nil =>
    refine ⟨ctx, rfl, ?_, hs⟩
    rw [show jobGroups [] = [] from rfl, List.append_nil]
    exact h
  | cons v elems ih =>
    rw [List.cons_append, Json.elemsEvents, List.append_assoc] at hr
    rw [Json.elemsEvents]
    by_cases hv : v.IsLiteral
    · rw [foldlM_literal hv] at hr ⊢
      have hnone : jobGroups (v :: elems) = jobGroups elems := by
        cases v with
        | null | boolean | double => rfl
        | integer | string | array | object => exact hv.elim
      rw [hnone]
      exact ih h hs hr
    cases v with
    | object members =>
      rw [List.foldlM_append] at hr ⊢
      obtain ⟨ctx₁, he₁, hr⟩ := Option.bind_eq_some_iff.1 hr
      obtain ⟨ctx₂, -, hs₂, hend⟩ := groupInvariant_true.group trivial hs he₁
      obtain ⟨ctx', he', h', hs'⟩ := ih (hJ h hs he₁) (searchSpecEndMap_group hs₂ hend) hr
      refine ⟨ctx', ?_, ?_, hs'⟩
      · rw [he₁]
        exact he'
      · rw [List.append_assoc] at h'
        exact h'
    | null | boolean | double => exact absurd trivial hv
    | integer n =>
      rw [Json.events, List.cons_append, List.foldlM_cons, searchSpecEvent, searchSpecInteger,
        hs] at hr
      cases hr
    | string value =>
      rw [Json.events, List.cons_append, List.foldlM_cons, searchSpecEvent, searchSpecString,
        hs] at hr
      cases hr
    | array elems' =>
      rw [Json.events, List.cons_append, List.cons_append, List.foldlM_cons, searchSpecEvent,
        searchSpecStartArray, hs] at hr
      cases hr

/-! ### The root -/

/-- What an array of groups keeps, for the arrays read so far. -/
structure JobInvariant (text : SearchText) (s : HonasState)
    (K : List (List JobGroup) → SearchSpecContext → Prop) : Prop where
  array : ∀ {arrays ctx elems ctx'}, K arrays ctx → ctx.state = .searchSpecExpectGroupsArray →
    (Json.array elems).events.foldlM (searchSpecEvent text s) ctx = some ctx' →
    K (arrays ++ [jobGroups elems]) ctx'
  key : ∀ {arrays ctx}, K arrays ctx →
    K arrays { ctx with state := .searchSpecExpectGroupsArray }

/-- **An array of groups**: its start, its elements, and its end. -/
theorem ArrayInvariant.array (hJ : ArrayInvariant text s J) {elems : List Json}
    (hs : ctx.state = .searchSpecExpectGroupsArray)
    (h : ∀ ctx₁, searchSpecStartArray ctx = some ctx₁ → J [] ctx₁)
    (hr : (Json.array elems).events.foldlM (searchSpecEvent text s) ctx = some r) :
    ∃ ctx', J (jobGroups elems) ctx' ∧ ctx'.state = .groupsArray ∧
      r = { ctx'.print [.arrayEnd] with state := .searchSpec } := by
  rw [Json.events, List.cons_append, List.foldlM_cons, searchSpecEvent] at hr
  obtain ⟨ctx₁, hstart, hr⟩ := Option.bind_eq_some_iff.1 hr
  have hs₁ : ctx₁.state = .groupsArray := by
    rw [searchSpecStartArray, hs] at hstart
    dsimp only at hstart
    rw [← Option.some_inj.1 hstart]
  rw [← List.append_nil elems] at hr
  obtain ⟨ctx', he, h', hs'⟩ := hJ.elems (h ctx₁ hstart) hs₁ hr
  rw [List.append_nil] at hr
  rw [List.foldlM_append, he] at hr
  dsimp only [Option.bind_eq_bind, Option.bind_some] at hr
  rw [List.foldlM_cons, searchSpecEvent, searchSpecEndArray, hs'] at hr
  exact ⟨ctx', h', hs', (Option.some_inj.1 hr).symm⟩

variable {K : List (List JobGroup) → SearchSpecContext → Prop} {arrays : List (List JobGroup)}

/-- **The members of a job.** -/
theorem JobInvariant.members (hK : JobInvariant text s K) {members more : List (List Byte × Json)}
    {rest : List JsonEvent} (h : K arrays ctx) (hs : ctx.state = .searchSpec)
    (hr : (Json.membersEvents (members ++ more) ++ .endMap :: rest).foldlM
      (searchSpecEvent text s) ctx = some r) :
    ∃ ctx', (Json.membersEvents members).foldlM (searchSpecEvent text s) ctx = some ctx' ∧
      K (arrays ++ jobArrays members) ctx' ∧ ctx'.state = .searchSpec := by
  induction members generalizing ctx arrays with
  | nil =>
    refine ⟨ctx, rfl, ?_, hs⟩
    rw [show jobArrays [] = [] from rfl, List.append_nil]
    exact h
  | cons m members ih =>
    obtain ⟨key, v⟩ := m
    obtain ⟨ctx₁, hk, hr, hstep⟩ := member_events hr
    rw [← hstep]
    rw [searchSpecMapKey, hs] at hk
    dsimp only at hk
    by_cases hkey : key = ascii "groups"
    · rw [if_pos hkey, Option.some_inj] at hk
      subst hk
      by_cases hv : v.IsLiteral
      · exact (not_dropped hv hr trivial).elim
      cases v with
      | array elems =>
        have hjob : jobArrays ((key, .array elems) :: members) = jobGroups elems :: jobArrays members := by
          rw [jobArrays, List.filterMap_cons_some (show jobArray (key, .array elems) = some _ from if_pos hkey)]
          rfl
        rw [List.foldlM_append] at hr ⊢
        obtain ⟨ctx₂, he₂, hr⟩ := Option.bind_eq_some_iff.1 hr
        have htrue : ArrayInvariant text s fun _ _ => True := fun _ _ _ => trivial
        obtain ⟨ctx₃, -, -, hctx₂⟩ := htrue.array rfl (fun _ _ => trivial) he₂
        obtain ⟨ctx', he', h', hs'⟩ := ih (hK.array (hK.key h) rfl he₂) (by rw [hctx₂]) hr
        refine ⟨ctx', ?_, ?_, hs'⟩
        · rw [he₂]
          exact he'
        · rw [List.append_assoc] at h'
          rw [hjob]
          exact h'
      | null | boolean | double => exact absurd trivial hv
      | integer | string | object => cases hr
    · rw [if_neg hkey, Option.some_inj] at hk
      subst hk
      obtain ⟨hv, hr⟩ := foldlM_ignored (.inl hs) hr
      have hjob : jobArrays ((key, v) :: members) = jobArrays members := by
        cases v with
        | null | boolean | double | string | object | integer => rfl
        | array elems =>
          rw [jobArrays, List.filterMap_cons_none (show jobArray (key, .array elems) = none from
            if_neg hkey)]
          rfl
      rw [hjob, foldlM_literal hv]
      exact ih h hs hr

end Callbacks

end Honas

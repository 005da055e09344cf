/-
  The report of the search tool and the documented one.

  * `flattened_results_iff`: when the results are flattened.
  * `search_report_iff`: when the result, as a JSON reader reads it, lists what is
    documented to be reported.
  * `groups_intersected`: the host names of a group are counted in the filters that
    contain them all.
-/
import Honas.SearchAccepted

namespace Honas

open Bits CString

/-! ## Flattening -/

/-- **Flattened results.**  The results are marked as flattened exactly for few
    clients, and then all counts are at most 1, exactly if the job has no array
    of groups, or few clients are the same as few host names: it is the number
    of host names that is compared with the threshold. -/
theorem flattened_results_iff {text : SearchText} {s : HonasState} {flattenThreshold : ℕ}
    {job : Json} {calls : List JsonPrinterCall}
    (h : performSearchJob text s flattenThreshold job = some calls) :
    ∃ result : SearchResult, calls = result.calls (addGeneralInformation text s) ∧
      (((∀ r ∈ result.arrays, (r.flattenedResults = true ↔
          s.header .estimatedNumberOfClients < flattenThreshold)) ∧
        (s.header .estimatedNumberOfClients < flattenThreshold →
          ∀ r ∈ result.groups, (∀ n ∈ r.hostNames, n.2 ≤ 1) ∧ r.hitsByAllHostNames ≤ 1)) ↔
      jobGroupsArrays job = [] ∨
        (s.header .estimatedNumberOfHostNames < flattenThreshold ↔
          s.header .estimatedNumberOfClients < flattenThreshold)) := by
  obtain ⟨result, hcalls, hrep⟩ := searchJobCalls_spec (performSearchJob_eq_some_iff.1 h).1
  have hflag : s.flattens flattenThreshold = true ↔
      s.header .estimatedNumberOfHostNames < flattenThreshold := decide_eq_true_iff
  refine ⟨result, hcalls, ?_⟩
  rw [hrep.flattened, hflag]
  constructor
  · exact fun hall => hall.1
  · refine fun hcase => ⟨hcase, fun hclients => ?_⟩
    have hgroups := hrep.groups
    rcases hcase with hnil | hiff
    · -- without groups there is nothing to count
      rw [hnil, List.flatten_nil] at hgroups
      have hnone := List.map_eq_nil_iff.1 (hgroups.contents.trans List.filterMap_nil)
      rw [SearchResult.groups, hnone]
      exact fun r hr => (List.not_mem_nil hr).elim
    · rw [hflag.2 (hiff.2 hclients)] at hgroups
      exact hgroups.counts_le

/-- The two groups are answered. -/
theorem performSearchJob_twoGroups {file : List Byte} {s : HonasState}
    (hload : honasStateLoad (some file) = some (.ok s))
    (hvalues : ∀ entry ∈ [bothEntry, firstEntry, noneEntry], IsHashValue s entry.2)
    (flattenThreshold : ℕ) : performSearchJob noText s flattenThreshold (jobOf twoGroups) =
      some ((s.searchResult (s.flattens flattenThreshold) (jobOf twoGroups)).calls
        (addGeneralInformation noText s)) := by
  simp only [List.forall_mem_cons] at hvalues
  obtain ⟨hv, hv', hv'', -⟩ := hvalues
  refine performSearchJob_jobOf hload noText_plain flattenThreshold ?_
  simp only [twoGroups, List.forall_mem_cons]
  exact ⟨⟨⟨hv, by decide⟩, ⟨hv', by decide⟩, nofun⟩, ⟨⟨hv, by decide⟩, ⟨hv'', by decide⟩, nofun⟩,
    nofun⟩

/-- The host names that are reported of them. -/
theorem results_twoGroups {s : HonasState} (flatten : Bool) :
    (s.searchResult flatten (jobOf twoGroups)).groups =
      s.groupResults flatten ⟨some 7, [bothEntry, firstEntry]⟩
        (s.hitsByAll flatten ⟨some 7, [bothEntry, firstEntry]⟩) ++
      s.groupResults flatten ⟨none, [bothEntry, noneEntry]⟩
        (s.hitsByAll flatten ⟨none, [bothEntry, noneEntry]⟩) := by
  rw [searchResult_groups, jobGroupsArrays_jobOf, List.flatten_singleton, twoGroups,
    HonasState.results, List.flatMap_cons, List.flatMap_singleton]

theorem flattened_results_few : ∃ file s calls, honasStateLoad (some file) = some (.ok s) ∧
    performSearchJob noText s 2 (jobOf twoGroups) = some calls ∧
    ∃ result : SearchResult, calls = result.calls (addGeneralInformation noText s) ∧
      result.groups.map GroupResult.hostNames = [[(ascii "a", 1)], [(ascii "a", 1)]] ∧
      (∀ r ∈ result.arrays, r.flattenedResults = true) ∧
      ∀ r ∈ result.groups, r.hitsByAllHostNames ≤ 1 := by
  obtain ⟨file, s, hload, hu, hclients, hhosts, hvalues, hboth, hfirst, hnone, -⟩ :=
    exists_loaded_entries
  have hrun := performSearchJob_twoGroups hload hvalues 2
  have hfew : s.header .estimatedNumberOfClients < 2 := by rw [hclients]; decide
  have hflat : s.flattens 2 = true := decide_eq_true (by rw [hhosts]; decide)
  obtain ⟨result, hcalls, hiff⟩ := flattened_results_iff hrun
  obtain ⟨hflags, hcounts⟩ := hiff.2 (.inr (by rw [hclients, hhosts]; decide))
  obtain rfl := SearchResult.calls_injective _ hcalls
  refine ⟨file, s, _, hload, hrun, _, rfl, ?_, fun r hr => (hflags r hr).2 hfew,
    fun r hr => (hcounts hfew r hr).2⟩
  have hnames : s.reportHostName true bothEntry = some (ascii "a", 1) ∧
      s.reportHostName true firstEntry = none ∧ s.reportHostName true noneEntry = none := by
    simp only [HonasState.reportHostName, hboth, hfirst, hnone, Option.bind_some,
      HonasState.reportedHits, hu]
    decide
  rw [hflat, results_twoGroups]
  simp [HonasState.groupResults, HonasState.reportGroup, HonasState.reportHostNames, hnames]

/-- With no host names and one client, the threshold 1 flattens. -/
theorem flattened_results_wrong : ∃ file s calls, honasStateLoad (some file) = some (.ok s) ∧
    performSearchJob noText s 1 (jobOf twoGroups) = some calls ∧
    ∃ result : SearchResult, calls = result.calls (addGeneralInformation noText s) ∧
      ¬ ∀ r ∈ result.arrays, (r.flattenedResults = true ↔
        s.header .estimatedNumberOfClients < 1) := by
  obtain ⟨file, s, hload, -, hclients, hhosts, hvalues, -⟩ := exists_loaded_entries
  have hrun := performSearchJob_twoGroups hload hvalues 1
  obtain ⟨result, hcalls, hrep⟩ := searchJobCalls_spec (performSearchJob_eq_some_iff.1 hrun).1
  refine ⟨file, s, _, hload, hrun, result, hcalls, fun hall => ?_⟩
  rw [hrep.flattened, jobGroupsArrays_jobOf, HonasState.flattens, hhosts, hclients] at hall
  rcases hall with hnil | hiff
  · cases hnil
  · exact absurd hiff (by decide)

/-! ## What is documented to be reported -/

/-- A host name with at least as many hits as there are filters per user. -/
def HonasState.documentedHostName (s : HonasState) (entry : List Byte × List Byte) :
    Option (List Byte × ℕ) :=
  (s.valueHits entry.2).bind fun hits =>
    if s.header .numberOfFiltersPerUser ≤ hits then some (entry.1, hits) else none

/-- A group with such a host name, and the identifier if it has one. -/
def HonasState.documentedGroup (s : HonasState) (g : JobGroup) :
    Option (List (List Byte × ℕ) × Option ℤ) :=
  if g.hostNames.filterMap s.documentedHostName = [] then none
  else some (g.hostNames.filterMap s.documentedHostName, g.id.map BitVec.toInt)

/-- A host name that is printed is read as a documented one: its key from the
    literal that the printer writes, and the same count. -/
def HostNameReadAs (printed documented : List Byte × ℕ) : Prop :=
  ReadBackAs printed.1 documented.1 ∧ printed.2 = documented.2

/-- A group that is printed is read as a documented one: its host names, and the
    identifier, which is always printed. -/
def GroupReadAs (printed : List (List Byte × ℕ) × BitVec 64)
    (documented : List (List Byte × ℕ) × Option ℤ) : Prop :=
  List.Forall₂ HostNameReadAs printed.1 documented.1 ∧ some (printed.2.toNat : ℤ) = documented.2

/-- The result of a group is read as a documented one. -/
def GroupResult.ReadAs (r : GroupResult) (documented : List (List Byte × ℕ) × Option ℤ) : Prop :=
  GroupReadAs (r.hostNames, r.id) documented

section Related

variable {α β γ : Type*} {R : β → γ → Prop}

theorem rel_flip {o : Option β} {o' : Option γ} :
    Option.Rel (flip R) o' o ↔ Option.Rel R o o' := by
  cases o <;> cases o' <;> simp [flip]

/-- Two partial functions of which one is defined wherever the other is: the
    lists of their values are related exactly if the values are. -/
theorem forall₂_filterMap_iff {f : α → Option β} {g : α → Option γ} : ∀ {l : List α},
    (∀ a ∈ l, (g a).isSome → (f a).isSome) →
      (List.Forall₂ R (l.filterMap f) (l.filterMap g) ↔ ∀ a ∈ l, Option.Rel R (f a) (g a))
  | [], _ => by simp
  | a :: l, h => by
    rw [List.forall_mem_cons] at h
    have hlen : (l.filterMap g).length ≤ (l.filterMap f).length := by
      rw [List.length_filterMap_eq_countP, List.length_filterMap_eq_countP]
      exact List.countP_mono_left h.2
    rw [List.forall_mem_cons, ← forall₂_filterMap_iff h.2]
    cases hf : f a with
    | none =>
      have hg : g a = none := by
        rw [← Option.not_isSome_iff_eq_none]
        intro hg
        simpa [hf] using h.1 hg
      simp [hf, hg]
    | some v =>
      cases hg : g a with
      | none =>
        rw [List.filterMap_cons_some hf, List.filterMap_cons_none hg]
        refine iff_of_false (fun hall => ?_) fun hall => by cases hall.1
        have hsame := hall.length_eq
        rw [List.length_cons] at hsame
        omega
      | some w =>
        rw [List.filterMap_cons_some hf, List.filterMap_cons_some hg, List.forall₂_cons,
          Option.rel_some_some]

theorem forall₂_filterMap_iff_of_le {f : α → Option β} {g : α → Option γ} {l : List α}
    (h : (∀ a ∈ l, (g a).isSome → (f a).isSome) ∨ ∀ a ∈ l, (f a).isSome → (g a).isSome) :
    List.Forall₂ R (l.filterMap f) (l.filterMap g) ↔ ∀ a ∈ l, Option.Rel R (f a) (g a) := by
  rcases h with h | h
  · exact forall₂_filterMap_iff h
  · have hflip := @forall₂_filterMap_iff α γ β (flip R) g f l h
    simp only [rel_flip] at hflip
    rw [← hflip]
    exact ⟨List.Forall₂.flip, List.Forall₂.flip⟩

end Related

section Documented

variable {s : HonasState}

/-- Whether the documented condition holds in one direction or the other
    depends on the number of filters per user only. -/
theorem reportHostName_isSome_or (s : HonasState) :
    (∀ entry, (s.documentedHostName entry).isSome → (s.reportHostName false entry).isSome) ∨
      ∀ entry, (s.reportHostName false entry).isSome → (s.documentedHostName entry).isSome := by
  rcases Nat.eq_zero_or_pos (s.header .numberOfFiltersPerUser) with hu | hu
  · right
    intro entry h
    rw [HonasState.reportHostName] at h
    rw [HonasState.documentedHostName]
    cases hh : s.valueHits entry.2 with
    | none => rw [hh] at h; cases h
    | some hits => rw [Option.bind_some, hu, if_pos (Nat.zero_le _)]; rfl
  · left
    intro entry h
    rw [HonasState.documentedHostName] at h
    rw [HonasState.reportHostName]
    cases hh : s.valueHits entry.2 with
    | none => rw [hh] at h; cases h
    | some hits =>
      rw [hh, Option.bind_some] at h
      split_ifs at h with hle
      · rw [Option.bind_some, HonasState.reportedHits, if_neg Bool.false_ne_true, if_pos (by omega)]
        rfl
      · cases h

/-- A host name is read as documented. -/
theorem reportHostName_rel_iff (entry : List Byte × List Byte) :
    Option.Rel HostNameReadAs (s.reportHostName false entry) (s.documentedHostName entry) ↔
      ∀ hits, s.valueHits entry.2 = some hits →
        (0 < hits ↔ s.header .numberOfFiltersPerUser ≤ hits) ∧
          (0 < hits → ReadableText entry.1) := by
  rw [HonasState.reportHostName, HonasState.documentedHostName]
  cases hh : s.valueHits entry.2 with
  | none => simp
  | some hits =>
    simp only [Option.bind_some, HonasState.reportedHits, Bool.false_eq_true, if_false,
      Option.some_inj, forall_eq']
    by_cases h0 : 0 < hits
    · by_cases hu : s.header .numberOfFiltersPerUser ≤ hits
      · simp [h0, hu, HostNameReadAs, readBackAs_truncate_iff]
      · simp [h0, hu]
    · by_cases hu : s.header .numberOfFiltersPerUser ≤ hits
      · simp [h0, hu]
      · simp [h0, hu]

/-- An identifier is printed as its value. -/
theorem printedId_eq_iff (id : Option (BitVec 64)) :
    some ((id.getD 0).toNat : ℤ) = id.map BitVec.toInt ↔ ∃ i, id = some i ∧ 0 ≤ i.toInt := by
  cases id with
  | none => simp
  | some i =>
    simp only [Option.getD_some, Option.map_some, Option.some_inj, exists_eq_left']
    have := i.isLt
    rw [BitVec.toInt_eq_toNat_cond]
    split_ifs <;> omega

/-- Whether a group is reported as documented: the host names with hits have
    enough of them and keys that can be read back, and there is an identifier
    for them that is not negative. -/
def HonasState.ReportsGroup (s : HonasState) (g : JobGroup) : Prop :=
  (∀ entry ∈ g.hostNames, ∀ hits, s.valueHits entry.2 = some hits →
    (0 < hits ↔ s.header .numberOfFiltersPerUser ≤ hits) ∧ (0 < hits → ReadableText entry.1)) ∧
  ((∃ entry ∈ g.hostNames, ∃ hits, s.valueHits entry.2 = some hits ∧ 0 < hits) →
    ∃ i, g.id = some i ∧ 0 ≤ i.toInt)

theorem reportHostNames_rel_iff (g : JobGroup) :
    List.Forall₂ HostNameReadAs (s.reportHostNames false g)
        (g.hostNames.filterMap s.documentedHostName) ↔
      ∀ entry ∈ g.hostNames, ∀ hits, s.valueHits entry.2 = some hits →
        (0 < hits ↔ s.header .numberOfFiltersPerUser ≤ hits) ∧
          (0 < hits → ReadableText entry.1) := by
  rw [HonasState.reportHostNames, forall₂_filterMap_iff_of_le ((reportHostName_isSome_or s).imp
    (fun h entry _ => h entry) fun h entry _ => h entry)]
  simp only [reportHostName_rel_iff]

theorem reportHostNames_ne_nil_iff (g : JobGroup) : s.reportHostNames false g ≠ [] ↔
    ∃ entry ∈ g.hostNames, ∃ hits, s.valueHits entry.2 = some hits ∧ 0 < hits := by
  rw [HonasState.reportHostNames, ne_eq, List.filterMap_eq_nil_iff]
  push Not
  refine exists_congr fun entry => and_congr_right fun _ => ?_
  rw [HonasState.reportHostName]
  cases hh : s.valueHits entry.2 with
  | none => simp
  | some hits => simp [HonasState.reportedHits, Nat.pos_iff_ne_zero]

/-- **A group is read as documented.** -/
theorem reportGroup_rel_iff (g : JobGroup) :
    Option.Rel GroupReadAs (s.reportGroup false g) (s.documentedGroup g) ↔ s.ReportsGroup g := by
  rw [HonasState.ReportsGroup, ← reportHostNames_rel_iff, ← reportHostNames_ne_nil_iff,
    ← printedId_eq_iff, HonasState.reportGroup, HonasState.documentedGroup]
  by_cases hnil : s.reportHostNames false g = []
  · rw [hnil, List.forall₂_nil_left_iff]
    by_cases hdoc : g.hostNames.filterMap s.documentedHostName = []
    · simp [hdoc]
    · simp [hdoc]
  · by_cases hdoc : g.hostNames.filterMap s.documentedHostName = []
    · rw [hdoc, List.forall₂_nil_right_iff]
      simp [hnil]
    · simp [hnil, hdoc, GroupReadAs]

/-- A group is reported wherever it is documented, or the other way. -/
theorem reportGroup_isSome_or (s : HonasState) :
    (∀ g, (s.documentedGroup g).isSome → (s.reportGroup false g).isSome) ∨
      ∀ g, (s.reportGroup false g).isSome → (s.documentedGroup g).isSome := by
  have hsome : ∀ {f f' : List Byte × List Byte → Option (List Byte × ℕ)},
      (∀ entry, (f entry).isSome → (f' entry).isSome) → ∀ g : JobGroup,
      g.hostNames.filterMap f ≠ [] → g.hostNames.filterMap f' ≠ [] := by
    intro f f' hdir g
    simp only [ne_eq, List.filterMap_eq_nil_iff, ← Option.not_isSome_iff_eq_none]
    exact mt fun hall entry he hs => hall entry he (hdir entry hs)
  have hreport : ∀ g, (s.reportGroup false g).isSome ↔ s.reportHostNames false g ≠ [] := by
    intro g
    rw [HonasState.reportGroup]
    split_ifs <;> simp_all
  have hdocument : ∀ g, (s.documentedGroup g).isSome ↔
      g.hostNames.filterMap s.documentedHostName ≠ [] := by
    intro g
    rw [HonasState.documentedGroup]
    split_ifs <;> simp_all
  simp only [hreport, hdocument]
  exact (reportHostName_isSome_or s).imp (fun h g => hsome h g) fun h g => hsome h g

/-- Groups that are read as documented can be printed. -/
theorem GroupResult.ReadAs.written {results : List GroupResult}
    {documented : List (List (List Byte × ℕ) × Option ℤ)}
    (h : List.Forall₂ GroupResult.ReadAs results documented) :
    ∀ key ∈ results.flatMap fun g => g.hostNames.map Prod.fst, (jsonPrinterWriteString key).isSome := by
  have hnames : ∀ {printed documented}, List.Forall₂ HostNameReadAs printed documented →
      ∀ key ∈ printed.map Prod.fst, (jsonPrinterWriteString key).isSome := by
    intro printed documented hall
    induction hall with
    | nil => exact nofun
    | cons hr _ ih =>
      rw [List.map_cons, List.forall_mem_cons]
      exact ⟨hr.1.isSome, ih⟩
  induction h with
  | nil => exact nofun
  | cons hr _ ih =>
    rw [List.flatMap_cons, List.forall_mem_append]
    exact ⟨hnames hr.1, ih⟩

/-- **The groups of a result are read as documented** exactly if each of them is. -/
theorem GroupsReported.readAs_iff {gs : List JobGroup} {results : List GroupResult}
    (h : GroupsReported s false gs results) :
    List.Forall₂ GroupResult.ReadAs results (gs.filterMap s.documentedGroup) ↔
      ∀ g ∈ gs, s.ReportsGroup g := by
  simp only [← reportGroup_rel_iff]
  rw [← forall₂_filterMap_iff_of_le ((reportGroup_isSome_or s).imp (fun h g _ => h g)
    fun h g _ => h g), ← h.contents, List.forall₂_map_left_iff]
  rfl

end Documented

/-- **The report.**  Without flattening, for a job that the callbacks accept, the
    program ends, and a JSON reader finds the documented groups and host names in
    what it prints, exactly if in every group the host names with hits have as
    many as there are filters per user and keys that can be read back, and if
    there is such a host name the group has an identifier that is not negative. -/
theorem search_report_iff {text : SearchText} (htext : text.Plain) {s : HonasState}
    {flattenThreshold : ℕ} {job : Json} {calls : List JsonPrinterCall}
    (h : searchJobCalls text s flattenThreshold job = some calls)
    (hflat : ¬ s.header .estimatedNumberOfHostNames < flattenThreshold) :
    ∃ result : SearchResult, calls = result.calls (addGeneralInformation text s) ∧
      (performSearchJob text s flattenThreshold job = some calls ∧
        List.Forall₂ GroupResult.ReadAs result.groups
          ((jobGroupsArrays job).flatten.filterMap s.documentedGroup) ↔
      ∀ g ∈ (jobGroupsArrays job).flatten, s.ReportsGroup g) := by
  obtain ⟨result, rfl, hrep⟩ := searchJobCalls_spec h
  have hgroups := hrep.groups
  rw [HonasState.flattens, decide_eq_false hflat] at hgroups
  refine ⟨result, rfl, ?_⟩
  rw [performSearchJob_eq_some_iff_keys htext h]
  exact (and_iff_right_of_imp GroupResult.ReadAs.written).trans hgroups.readAs_iff

/-- The keys of one character that are read as themselves. -/
theorem readableText_ascii : ReadableText (ascii "a") ∧ ¬ ReadableText (ascii "/") ∧
    ¬ ReadableText (ascii "~") := by
  have hone : ∀ c : Char, ReadableText (utf8 [c]) ↔ Readback c := fun c =>
    readableText_utf8_iff.trans List.forall_mem_singleton
  exact ⟨(hone 'a').2 (by decide), mt (hone '/').1 (by decide), mt (hone '~').1 (by decide)⟩

theorem search_report_documented : ∃ file s calls, honasStateLoad (some file) = some (.ok s) ∧
    performSearchJob noText s 0
      (jobOf [⟨some 7, [noneEntry, bothEntry]⟩, ⟨none, [noneEntry]⟩]) = some calls ∧
    ∃ result : SearchResult, calls = result.calls (addGeneralInformation noText s) ∧
      List.Forall₂ GroupResult.ReadAs result.groups [([(ascii "a", 2)], some 7)] := by
  obtain ⟨file, s, hload, hu, -, hhosts, hvalues, hboth, -, hnone, -⟩ := exists_loaded_entries
  simp only [List.forall_mem_cons] at hvalues
  obtain ⟨hv, -, hv', -⟩ := hvalues
  have hjob : IsJob s (jobOf [⟨some 7, [noneEntry, bothEntry]⟩, ⟨none, [noneEntry]⟩]) := by
    simp only [isJob_jobOf_iff, List.forall_mem_cons]
    exact ⟨⟨hv', hv, nofun⟩, ⟨hv', nofun⟩, nofun⟩
  have hcalls := searchJobCalls_of_isJob hload noText 0 hjob
  obtain ⟨result, heq, hiff⟩ := search_report_iff noText_plain hcalls (Nat.not_lt_zero _)
  have hnames : ∀ entry ∈ [noneEntry, bothEntry], ∀ hits, s.valueHits entry.2 = some hits →
      (0 < hits ↔ s.header .numberOfFiltersPerUser ≤ hits) ∧ (0 < hits → ReadableText entry.1) := by
    simp only [List.forall_mem_cons, hboth, hnone, hu]
    refine ⟨?_, ?_, nofun⟩
    · rintro hits ⟨⟩
      exact ⟨by decide, nofun⟩
    · rintro hits ⟨⟩
      exact ⟨by decide, fun _ => readableText_ascii.1⟩
  have hgroups : ∀ g ∈ (jobGroupsArrays (jobOf [⟨some 7, [noneEntry, bothEntry]⟩,
      ⟨none, [noneEntry]⟩])).flatten, s.ReportsGroup g := by
    rw [jobGroupsArrays_jobOf, List.flatten_singleton]
    simp only [List.forall_mem_cons]
    refine ⟨⟨hnames, fun _ => ⟨7, rfl, by decide⟩⟩, ⟨fun entry he => hnames entry ?_, ?_⟩, nofun⟩
    · rw [List.mem_singleton.1 he]
      exact List.mem_cons_self ..
    · rintro ⟨entry, he, hits, hh, hpos⟩
      rw [List.mem_singleton.1 he, hnone] at hh
      cases hh
      cases hpos
  obtain ⟨hanswered, hread⟩ := hiff.2 hgroups
  have hdoc : s.documentedHostName bothEntry = some (ascii "a", 2) ∧
      s.documentedHostName noneEntry = none := by
    simp only [HonasState.documentedHostName, hboth, hnone, Option.bind_some, hu]
    decide
  rw [jobGroupsArrays_jobOf, List.flatten_singleton] at hread
  refine ⟨file, s, _, hload, hanswered, result, heq, ?_⟩
  simpa [HonasState.documentedGroup, hdoc] using hread

/-- Three groups whose host name has enough hits are not reported as documented:
    one without an identifier, one with a slash in the key, and one with a tilde,
    for which nothing is printed. -/
theorem not_search_report : ∃ file s, honasStateLoad (some file) = some (.ok s) ∧
    ∀ g ∈ [⟨none, [bothEntry]⟩, ⟨some 7, [(ascii "/", bothEntry.2)]⟩,
        ⟨some 7, [(ascii "~", bothEntry.2)]⟩],
      ∃ result : SearchResult, searchJobCalls noText s 0 (jobOf [g]) =
          some (result.calls (addGeneralInformation noText s)) ∧
        ¬ (performSearchJob noText s 0 (jobOf [g]) =
            some (result.calls (addGeneralInformation noText s)) ∧
          List.Forall₂ GroupResult.ReadAs result.groups
            ((jobGroupsArrays (jobOf [g])).flatten.filterMap s.documentedGroup)) := by
  obtain ⟨file, s, hload, hu, -, hhosts, hvalues, hboth, -⟩ := exists_loaded_entries
  have hv := hvalues _ (List.mem_cons_self ..)
  have hflat : s.flattens 0 = false := decide_eq_false (Nat.not_lt_zero _)
  obtain ⟨-, hslash, htilde⟩ := readableText_ascii
  -- it is enough that the condition does not hold
  have hwrong : ∀ g : JobGroup, (∀ entry ∈ g.hostNames, IsHashValue s entry.2) →
      ¬ s.ReportsGroup g → ∃ result : SearchResult, searchJobCalls noText s 0 (jobOf [g]) =
          some (result.calls (addGeneralInformation noText s)) ∧
        ¬ (performSearchJob noText s 0 (jobOf [g]) =
            some (result.calls (addGeneralInformation noText s)) ∧
          List.Forall₂ GroupResult.ReadAs result.groups
            ((jobGroupsArrays (jobOf [g])).flatten.filterMap s.documentedGroup)) := by
    intro g hg hnot
    have hcalls := searchJobCalls_of_isJob hload noText 0
      (isJob_jobOf_iff.2 (List.forall_mem_singleton.2 hg))
    obtain ⟨result, heq, hrep⟩ := searchJobCalls_spec hcalls
    have hgroups := hrep.groups
    rw [hflat] at hgroups
    refine ⟨result, by rw [hcalls, heq], ?_⟩
    rintro ⟨-, hread⟩
    refine hnot (hgroups.readAs_iff.1 hread g ?_)
    rw [jobGroupsArrays_jobOf, List.flatten_singleton]
    exact List.mem_singleton_self g
  refine ⟨file, s, hload, ?_⟩
  simp only [List.forall_mem_cons]
  refine ⟨hwrong _ (List.forall_mem_singleton.2 hv) fun h => ?_,
    hwrong _ (List.forall_mem_singleton.2 hv) fun h => ?_,
    hwrong _ (List.forall_mem_singleton.2 hv) fun h => ?_, nofun⟩
  · obtain ⟨i, hi, -⟩ := h.2 ⟨_, List.mem_singleton_self _, 2, hboth, by decide⟩
    cases hi
  · exact hslash ((h.1 _ (List.mem_singleton_self _) 2 hboth).2 (by decide))
  · exact htilde ((h.1 _ (List.mem_singleton_self _) 2 hboth).2 (by decide))

/-! ## Host names that are in the same filters -/

/-- The order of the host names does not matter. -/
theorem length_commonFilters_perm {s : HonasState} {g g' : JobGroup}
    (h : g'.hostNames.Perm g.hostNames) :
    (s.commonFilters g'.hashes).length = (s.commonFilters g.hashes).length :=
  HonasState.length_commonFilters_congr fun _ => (h.filterMap _).mem_iff

/-- **The intersection of a group.**  The groups that are reported count the
    filters that contain all hashes of the group which decode; flattened, 1 if
    there are as many as filters per user, and 0 otherwise.  The order of the
    host names does not matter. -/
theorem groups_intersected {text : SearchText} {s : HonasState} {flattenThreshold : ℕ}
    {job : Json} {calls : List JsonPrinterCall}
    (h : performSearchJob text s flattenThreshold job = some calls) :
    ∃ result : SearchResult, calls = result.calls (addGeneralInformation text s) ∧
      List.Forall₂ (fun g r =>
          s.reportGroup (s.flattens flattenThreshold) g = some (r.hostNames, r.id) ∧
          ∀ g' : JobGroup, g'.hostNames.Perm g.hostNames → r.hitsByAllHostNames =
            if s.flattens flattenThreshold then
              if s.header .numberOfFiltersPerUser ≤ (s.commonFilters g'.hashes).length then 1 else 0
            else (s.commonFilters g'.hashes).length)
        ((jobGroupsArrays job).flatten.filter fun g =>
          (s.reportGroup (s.flattens flattenThreshold) g).isSome)
        result.groups := by
  obtain ⟨hcalls, -⟩ := searchJobCalls_result (performSearchJob_eq_some_iff.1 h).1
  refine ⟨_, hcalls, ?_⟩
  rw [searchResult_groups]
  induction (jobGroupsArrays job).flatten with
  | nil => exact .nil
  | cons g gs ih =>
    rw [HonasState.results, List.flatMap_cons]
    cases hr : s.reportGroup (s.flattens flattenThreshold) g with
    | none =>
      rw [List.filter_cons_of_neg (by rw [hr]; exact Bool.false_ne_true), HonasState.groupResults, hr]
      exact ih
    | some r =>
      rw [List.filter_cons_of_pos (by rw [hr]; rfl), HonasState.groupResults, hr]
      refine .cons ⟨hr, fun g' hperm => ?_⟩ ih
      change s.hitsByAll (s.flattens flattenThreshold) g = _
      rw [HonasState.hitsByAll, HonasState.reportedHits, length_commonFilters_perm hperm]
      by_cases hle : s.header .numberOfFiltersPerUser ≤ (s.commonFilters g.hashes).length
      · rw [if_pos hle, if_neg (not_lt.2 hle)]
      · rw [if_neg hle, if_pos (not_le.1 hle)]

theorem groups_intersected_two : ∃ file s calls, honasStateLoad (some file) = some (.ok s) ∧
    performSearchJob noText s 0 (jobOf twoGroups) = some calls ∧
    ∃ result : SearchResult, calls = result.calls (addGeneralInformation noText s) ∧
      result.groups.map (fun r => (r.hostNames, r.hitsByAllHostNames)) =
        [([(ascii "a", 2), (ascii "b", 1)], 1), ([(ascii "a", 2)], 0)] := by
  obtain ⟨file, s, hload, -, -, -, hvalues, hboth, hfirst, hnone, hcommon, hcommon'⟩ :=
    exists_loaded_entries
  have hrun := performSearchJob_twoGroups hload hvalues 0
  have hflat : s.flattens 0 = false := decide_eq_false (Nat.not_lt_zero _)
  obtain ⟨result, hcalls, hall⟩ := groups_intersected hrun
  refine ⟨file, s, _, hload, hrun, result, hcalls, ?_⟩
  have hnames : s.reportHostName false bothEntry = some (ascii "a", 2) ∧
      s.reportHostName false firstEntry = some (ascii "b", 1) ∧
      s.reportHostName false noneEntry = none := by
    simp only [HonasState.reportHostName, hboth, hfirst, hnone, Option.bind_some,
      HonasState.reportedHits, Bool.false_eq_true, if_false]
    decide
  have hgroup : s.reportGroup false ⟨some 7, [bothEntry, firstEntry]⟩ =
      some ([(ascii "a", 2), (ascii "b", 1)], 7) := by
    simp [HonasState.reportGroup, HonasState.reportHostNames, hnames]
  have hgroup' : s.reportGroup false ⟨none, [bothEntry, noneEntry]⟩ = some ([(ascii "a", 2)], 0) := by
    simp [HonasState.reportGroup, HonasState.reportHostNames, hnames]
  rw [jobGroupsArrays_jobOf, List.flatten_singleton, hflat, twoGroups,
    List.filter_cons_of_pos (by rw [hgroup]; rfl), List.filter_cons_of_pos (by rw [hgroup']; rfl),
    List.filter_nil, List.forall₂_cons_left_iff] at hall
  obtain ⟨r, results, ⟨hr, hhits⟩, hall, hresults⟩ := hall
  obtain ⟨r', rest, ⟨hr', hhits'⟩, hnil, rfl⟩ := List.forall₂_cons_left_iff.1 hall
  obtain rfl := List.forall₂_nil_left_iff.1 hnil
  rw [hgroup, Option.some_inj, Prod.mk.injEq] at hr
  rw [hgroup', Option.some_inj, Prod.mk.injEq] at hr'
  have hcount := hhits _ (.refl _)
  have hcount' := hhits' _ (.refl _)
  rw [if_neg Bool.false_ne_true] at hcount hcount'
  rw [hresults, List.map_cons, List.map_singleton, ← hr.1, ← hr'.1, hcount, hcount']
  exact congrArg₂ (fun l l' : List ℕ => [([(ascii "a", 2), (ascii "b", 1)], l.length),
    ([(ascii "a", 2)], l'.length)]) hcommon hcommon'

end Honas

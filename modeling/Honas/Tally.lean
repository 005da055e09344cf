/-
  What lookups leave behind.

  A lookup is a sequence of events (`ValidLookup.events`): each string that it
  stores is one, and the first one also carries the request.  A tally is what
  the events add up to: the bits set in the filters, the registers of the
  counters, the number of requests and the request times.  It says what a state
  stands for, without its memory; that a state keeps the tally of its lookups
  is `StateRegister.lean`.

  Filters and counters are instances of `FilterBank` and `MaxSketch`.
-/
import Honas.StateLayout
import Honas.Lib.FilterBank

namespace Honas

open Bits MaxSketch

/-! ## Positions in the memory -/

namespace StateParams

/-- The position of bit `b` of filter `f`. -/
def filterPos (p : StateParams) (f b : ℕ) : ℕ := 8 * (p.first + f * p.stride) + b

/-- The position of bit `i` of the registers of a counter. -/
def countPos (p : StateParams) (c : Counter) (i : ℕ) : ℕ := 8 * (p.countRegion c).off + i

end StateParams

/-! ## The bits of a digest -/

theorem transformWords_length (multiplier : ℕ) : ∀ (n : ℕ) (src : List Byte),
    (transformWords multiplier n src).length = 8 * n
  | 0, _ => rfl
  | n + 1, src => by
    rw [transformWords, List.length_append, length_toLE, transformWords_length multiplier n]; omega

/-- The transformed digest, as a function. -/
def transformed (f : ℕ) (d : Digest) : List Byte := (filterIndexHostNameHashTransform f d.1).getD []

theorem transform_spec (f : ℕ) (d : Digest) :
    filterIndexHostNameHashTransform f d.1 = some (transformed f d) ∧ (transformed f d).length = 32 := by
  have h32 : d.1.length = 32 := d.2
  unfold transformed filterIndexHostNameHashTransform
  split_ifs with h0 h8
  · exact ⟨rfl, h32⟩
  · exact ⟨rfl, by rw [Option.getD_some, transformWords_length, h32]⟩
  · exact absurd (by rw [h32]) h8

/-- The offsets of a digest in filter `f`. -/
def StateParams.offsets (p : StateParams) (f : ℕ) (d : Digest) : List ℕ :=
  bloomOffsets p.hashes p.len (transformed f d)

theorem StateParams.Ok.offsets_lt {p : StateParams} (h : p.Ok) {f : ℕ} {d : Digest} :
    ∀ b ∈ p.offsets f d, b < 8 * p.len := by
  have hl := (transform_spec f d).2
  exact (bloomOffsets_spec h.bloomOk (by omega) (by omega)).2

/-- The bits of a digest in filter `f`. -/
def StateParams.bits (p : StateParams) (f : ℕ) (d : Digest) : Set ℕ := {b | b ∈ p.offsets f d}

/-! ## Lookups -/

/-- A lookup that the function accepts: the client has an address, the host name
    is 1 to 255 bytes, and the entity name fits in its buffer. -/
structure ValidLookup where
  timestamp : BitVec 64
  client : InAddr46
  client_ok : (clientHash client).isSome
  hostName : List Byte
  hostName_ne : hostName ≠ []
  hostName_le : hostName.length ≤ 255
  entity : Option EntityName
  qtype : ℕ

namespace ValidLookup

/-- The arguments of the call. -/
def toLookup (l : ValidLookup) : Lookup :=
  ⟨l.timestamp, l.client, l.hostName, l.entity.map EntityName.bytes, l.qtype⟩

/-- The client hash. -/
def hash (l : ValidLookup) : BitVec 64 := (clientHash l.client).get l.client_ok

theorem clientHash_eq (l : ValidLookup) : clientHash l.client = some l.hash :=
  Option.eq_some_of_isSome l.client_ok

/-- The strings that the lookup stores. -/
def names (l : ValidLookup) : List StoredName :=
  (hostNameStrings l.hostName (l.entity.map EntityName.bytes) l.qtype).getD []

theorem hostNameStrings_eq (l : ValidLookup) :
    hostNameStrings l.hostName (l.entity.map EntityName.bytes) l.qtype = some l.names := by
  obtain ⟨strings, h⟩ := hostNameStrings_isSome l.entity l.qtype l.hostName_ne l.hostName_le
  rw [names, h, Option.getD_some]

/-- The host name itself is always stored. -/
theorem names_ne_nil (l : ValidLookup) : l.names ≠ [] := by
  obtain ⟨host, hc, hle⟩ := canonicalHostName_spec l.hostName_ne l.hostName_le
  obtain ⟨labels, hne, hd, hh⟩ := exists_labels host
  rw [names, hostNameStrings_spec l.entity l.qtype hc hle hne hd hh]
  simp

end ValidLookup

/-- The filters of a client. -/
def StateParams.filtersOf (p : StateParams) (hash : BitVec 64) : List ℕ :=
  (lookupCombination p.n p.perUser
    (hash.toNat % (numberOfCombinations p.n p.perUser).getD 0)).getD []

theorem StateParams.Ok.filtersOf_spec {p : StateParams} (h : p.Ok) (hash : BitVec 64) :
    ∃ nr, numberOfCombinations p.n p.perUser = some nr ∧ nr ≠ 0 ∧
      lookupCombination p.n p.perUser (hash.toNat % nr) = some (p.filtersOf hash) ∧
      IsSubset p.n p.perUser (p.filtersOf hash) := by
  have hnr := numberOfCombinations_eq h.perUser_le h.n_lt
  have h0 := (numberOfCombinations_ne_zero h.perUser_le h.n_lt hnr).1
  obtain ⟨l, hl, hs, -⟩ := lookupCombination_spec h.perUser h.perUser_le h.n_lt hnr
    (Nat.mod_lt hash.toNat h0)
  refine ⟨_, hnr, h0.ne', ?_⟩
  rw [filtersOf, hnr, Option.getD_some, hl, Option.getD_some]
  exact ⟨rfl, hs⟩

/-! ## Events -/

/-- Storing one string, and the request with the client hash if it is the first
    string of a lookup. -/
structure Event where
  request : Option (BitVec 64 × BitVec 64)
  filters : List ℕ
  digest : Digest

namespace Event

/-- What an event stores in the filters. -/
def entry (e : Event) : FilterBank.Entry ℕ Digest := ⟨e.filters, e.digest⟩

/-- What an event adds to a counter. -/
def entries (e : Event) : Counter → List (ℕ × ℕ)
  | .client => e.request.toList.map fun r => hllEntry r.2
  | .hostName => [hllEntry e.digest.word]

end Event

/-- The events of a lookup. -/
def ValidLookup.events (sha256 : List Byte → Digest) (p : StateParams) (l : ValidLookup) :
    List Event :=
  match l.names with
  | [] => []
  | stored :: names =>
    ⟨some (l.timestamp, l.hash), p.filtersOf l.hash, sha256 stored.name⟩ ::
      names.map fun stored => ⟨none, p.filtersOf l.hash, sha256 stored.name⟩

/-- The events of several lookups. -/
def eventsOf (sha256 : List Byte → Digest) (p : StateParams) (ls : List ValidLookup) : List Event :=
  ls.flatMap (ValidLookup.events sha256 p)

theorem mem_events {sha256 : List Byte → Digest} {p : StateParams} {l : ValidLookup} {e : Event}
    (he : e ∈ l.events sha256 p) :
    e.filters = p.filtersOf l.hash ∧ ∃ stored ∈ l.names, e.digest = sha256 stored.name := by
  unfold ValidLookup.events at he
  cases hn : l.names with
  | nil => exact absurd hn l.names_ne_nil
  | cons stored names =>
    simp only [hn, List.mem_cons, List.mem_map] at he
    rcases he with rfl | ⟨n, hm, rfl⟩
    · exact ⟨rfl, stored, by simp, rfl⟩
    · exact ⟨rfl, n, by simp [hm], rfl⟩

theorem exists_event (sha256 : List Byte → Digest) (p : StateParams) {l : ValidLookup}
    {stored : StoredName} (hs : stored ∈ l.names) :
    ∃ e ∈ l.events sha256 p, e.entry = ⟨p.filtersOf l.hash, sha256 stored.name⟩ := by
  unfold ValidLookup.events
  cases hn : l.names with
  | nil => exact absurd hn l.names_ne_nil
  | cons first names =>
    rw [hn, List.mem_cons] at hs
    rcases hs with rfl | hs
    · exact ⟨_, List.mem_cons_self .., rfl⟩
    · exact ⟨_, List.mem_cons_of_mem _ (List.mem_map_of_mem hs), rfl⟩

/-- A lookup is one request. -/
theorem events_request (sha256 : List Byte → Digest) (p : StateParams) (l : ValidLookup) :
    (l.events sha256 p).filterMap Event.request = [(l.timestamp, l.hash)] := by
  unfold ValidLookup.events
  cases hn : l.names with
  | nil => exact absurd hn l.names_ne_nil
  | cons first names =>
    have : ∀ names : List StoredName,
        (names.map fun s => (⟨none, p.filtersOf l.hash, sha256 s.name⟩ : Event)).filterMap
          Event.request = [] := by
      intro names
      rw [List.filterMap_map, List.filterMap_eq_nil_iff]
      exact fun _ _ => rfl
    dsimp only
    rw [List.filterMap_cons_some (f := Event.request) rfl, this]

theorem eventsOf_request (sha256 : List Byte → Digest) (p : StateParams) (ls : List ValidLookup) :
    (eventsOf sha256 p ls).filterMap Event.request = ls.map fun l => (l.timestamp, l.hash) := by
  induction ls with
  | nil => rfl
  | cons l ls ih =>
    rw [eventsOf, List.flatMap_cons, List.filterMap_append, events_request]
    exact congrArg _ ih

/-! ## Tallies -/

/-- The first and the last request time after a request at `t`. -/
def nextTimes (times : ℕ × ℕ) (t : ℕ) : ℕ × ℕ :=
  if times.2 < t then (if times.1 = 0 then t else times.1, t) else times

/-- What lookups leave behind. -/
structure Tally where
  filters : Set (ℕ × ℕ)
  regs : Counter → ℕ → ℕ
  requests : ℕ
  times : ℕ × ℕ

namespace Tally

/-- Nothing. -/
def empty : Tally := ⟨∅, fun _ _ => 0, 0, (0, 0)⟩

/-- Count a request. -/
def request (a : Tally) (t : BitVec 64) : Tally :=
  { a with requests := a.requests + 1, times := nextTimes a.times t.toNat }

/-- Add a hash to a counter. -/
def count (a : Tally) (c : Counter) (hash : BitVec 64) : Tally :=
  { a with regs := Function.update a.regs c (raise (a.regs c) (hllEntry hash)) }

/-- Store a digest in filters. -/
def store (p : StateParams) (a : Tally) (filters : List ℕ) (d : Digest) : Tally :=
  { a with filters := a.filters ∪ FilterBank.contents p.bits [⟨filters, d⟩] }

/-- The request of an event. -/
def start (a : Tally) (e : Event) : Tally :=
  match e.request with
  | some (t, hash) => (a.request t).count .client hash
  | none => a

/-- The tally after an event. -/
def step (p : StateParams) (a : Tally) (e : Event) : Tally :=
  ((a.start e).count .hostName e.digest.word).store p e.filters e.digest

/-- The tally after several events. -/
def run (p : StateParams) (a : Tally) (es : List Event) : Tally := es.foldl (step p) a

/-- The union of two tallies, as `honas_state_aggregate_combine` forms it. -/
def combine (a b : Tally) : Tally where
  filters := a.filters ∪ b.filters
  regs c r := a.regs c r ||| b.regs c r
  requests := a.requests + b.requests
  times := (min a.times.1 b.times.1, max a.times.2 b.times.2)

variable {p : StateParams} {a : Tally}

theorem run_append (es es' : List Event) : a.run p (es ++ es') = (a.run p es).run p es' :=
  List.foldl_append

theorem step_filters (e : Event) :
    (a.step p e).filters = a.filters ∪ FilterBank.contents p.bits [e.entry] := by
  unfold step start
  cases e.request <;> rfl

theorem step_regs (e : Event) (c : Counter) :
    (a.step p e).regs c = addAll (a.regs c) (e.entries c) := by
  unfold step start Event.entries
  cases e.request <;> cases c <;> rfl

theorem step_requests (e : Event) :
    (a.step p e).requests = a.requests + e.request.toList.length := by
  unfold step start
  cases e.request <;> rfl

theorem step_times (e : Event) : (a.step p e).times =
    e.request.toList.foldl (fun times r => nextTimes times r.1.toNat) a.times := by
  unfold step start
  cases e.request <;> rfl

theorem run_cons (e : Event) (es : List Event) : a.run p (e :: es) = (a.step p e).run p es := rfl

theorem run_filters (es : List Event) :
    (a.run p es).filters = a.filters ∪ FilterBank.contents p.bits (es.map Event.entry) := by
  induction es generalizing a with
  | nil => simp [run]
  | cons e es ih =>
    rw [run_cons, ih, step_filters, Set.union_assoc, ← FilterBank.contents_append]
    rfl

theorem run_regs (es : List Event) (c : Counter) :
    (a.run p es).regs c = addAll (a.regs c) (es.flatMap fun e => e.entries c) := by
  induction es generalizing a with
  | nil => rfl
  | cons e es ih => rw [run_cons, ih, step_regs, List.flatMap_cons, addAll_append]

theorem run_requests (es : List Event) :
    (a.run p es).requests = a.requests + (es.filterMap Event.request).length := by
  induction es generalizing a with
  | nil => rfl
  | cons e es ih =>
    rw [run_cons, ih, step_requests]
    cases hr : e.request with
    | none => rw [List.filterMap_cons_none hr]; rfl
    | some r => rw [List.filterMap_cons_some hr, List.length_cons, Nat.add_assoc,
      Nat.add_comm _ 1]; rfl

theorem run_times (es : List Event) :
    (a.run p es).times =
      (es.filterMap Event.request).foldl (fun times r => nextTimes times r.1.toNat) a.times := by
  induction es generalizing a with
  | nil => rfl
  | cons e es ih =>
    rw [run_cons, ih, step_times]
    cases hr : e.request with
    | none => rw [List.filterMap_cons_none hr]; rfl
    | some r => rw [List.filterMap_cons_some hr]; rfl

/-- The tally of several lookups. -/
def ofLookups (sha256 : List Byte → Digest) (p : StateParams) (ls : List ValidLookup) : Tally :=
  empty.run p (eventsOf sha256 p ls)

variable {sha256 : List Byte → Digest}

theorem ofLookups_filters (ls : List ValidLookup) : (ofLookups sha256 p ls).filters =
    FilterBank.contents p.bits ((eventsOf sha256 p ls).map Event.entry) := by
  rw [ofLookups, run_filters]
  exact Set.empty_union _

/-- **The bits that lookups set.** -/
theorem mem_ofLookups_filters {ls : List ValidLookup} {f b : ℕ} :
    (f, b) ∈ (ofLookups sha256 p ls).filters ↔
      ∃ l ∈ ls, f ∈ p.filtersOf l.hash ∧
        ∃ stored ∈ l.names, b ∈ p.offsets f (sha256 stored.name) := by
  rw [ofLookups_filters]
  constructor
  · rintro ⟨_, hent, hf, hb⟩
    obtain ⟨e, he, rfl⟩ := List.mem_map.1 hent
    obtain ⟨l, hl, hel⟩ := List.mem_flatMap.1 he
    obtain ⟨h1, stored, hs, h2⟩ := mem_events hel
    refine ⟨l, hl, h1 ▸ hf, stored, hs, ?_⟩
    rw [← h2]; exact hb
  · rintro ⟨l, hl, hf, stored, hs, hb⟩
    obtain ⟨e, he, hent⟩ := exists_event sha256 p hs
    refine ⟨e.entry, List.mem_map_of_mem (List.mem_flatMap.2 ⟨l, hl, he⟩), ?_, ?_⟩
    · rw [hent]; exact hf
    · rw [hent]; exact hb

/-- **Order and repetition do not matter** for the filters. -/
theorem ofLookups_filters_congr {ls ls' : List ValidLookup} (h : ∀ l, l ∈ ls ↔ l ∈ ls') :
    (ofLookups sha256 p ls).filters = (ofLookups sha256 p ls').filters := by
  rw [ofLookups_filters, ofLookups_filters]
  refine FilterBank.contents_congr fun e => ?_
  simp only [eventsOf, List.mem_map, List.mem_flatMap, h]

/-- **Concatenating lookups** unites the filters. -/
theorem ofLookups_filters_append (A B : List ValidLookup) :
    (ofLookups sha256 p (A ++ B)).filters =
      (ofLookups sha256 p A).filters ∪ (ofLookups sha256 p B).filters := by
  rw [ofLookups_filters, ofLookups_filters, ofLookups_filters, eventsOf, List.flatMap_append,
    List.map_append, FilterBank.contents_append]
  rfl

theorem ofLookups_requests (ls : List ValidLookup) :
    (ofLookups sha256 p ls).requests = ls.length := by
  rw [ofLookups, run_requests, eventsOf_request, List.length_map]
  exact Nat.zero_add _

theorem ofLookups_times (ls : List ValidLookup) : (ofLookups sha256 p ls).times =
    ls.foldl (fun times l => nextTimes times l.timestamp.toNat) (0, 0) := by
  rw [ofLookups, run_times, eventsOf_request, List.foldl_map]
  rfl

end Tally

end Honas

/-
  Checking for lookups (`honas_state_check_host_name_lookups`).

  On a state that keeps a tally, the check counts and marks the filters of the
  tally that hit the digest (`check_spec`).  `filters_of_lookups` says which
  bits are set after any lookups on a new state, and that every string which a
  lookup stored is found in all the filters of its client.
-/
import Honas.StateRegister

namespace Honas

open Bits

/-! ## Filters -/

namespace HonasState

/-- Filter `f` of a state, and its bit `b`. -/
def filter (s : HonasState) (f : ℕ) : Option ByteSlice := do
  let region ← s.filters[f]?
  readRegion s.mmap region

def filterBit (s : HonasState) (f b : ℕ) : Bool :=
  match s.filter f with
  | some filter => bitAt filter.bytes b
  | none => false

end HonasState

theorem filter_eq {p : StateParams} {s : HonasState} (h : Shaped p s) {f : ℕ} (hf : f < p.n) :
    s.filter f = some ⟨p.first + f * p.stride, slice s.mmap (p.first + f * p.stride) p.len⟩ := by
  obtain ⟨hr, hread, -⟩ := h.filter hf
  rw [HonasState.filter, hr]
  exact hread

theorem filter_eq_none {p : StateParams} {s : HonasState} (h : Shaped p s) {f : ℕ} (hf : p.n ≤ f) :
    s.filter f = none := by
  rw [HonasState.filter, h.filters, List.getElem?_eq_none (by simpa using hf)]
  rfl

theorem filterBit_eq {p : StateParams} {s : HonasState} (h : Shaped p s) {f b : ℕ} (hf : f < p.n)
    (hb : b < 8 * p.len) : s.filterBit f b = bitAt s.mmap (p.filterPos f b) := by
  rw [HonasState.filterBit, filter_eq h hf]
  dsimp only
  rw [bitAt_slice, decide_eq_true hb, Bool.true_and]
  rfl

/-- States that keep the same filter bits have the same filters. -/
theorem Represents.filter_congr {p q : StateParams} {a b : Tally} {s t : HonasState}
    (hs : Represents p a s) (ht : Represents q b t) (hn : p.n = q.n) (hl : p.len = q.len)
    (hab : a.filters = b.filters) (f : ℕ) : s.filter f = t.filter f := by
  have hst : p.stride = q.stride := by rw [StateParams.stride, hl]; rfl
  have hfi : p.first = q.first := by rw [StateParams.first, hn]; rfl
  by_cases hf : f < p.n
  · have hlen : ∀ {r : StateParams} {u : HonasState}, Shaped r u → f < r.n →
        (slice u.mmap (r.first + f * r.stride) r.len).length = r.len := fun hu hf =>
      length_slice (hu.filter hf).2.2
    rw [filter_eq hs.toShaped hf, filter_eq ht.toShaped (hn ▸ hf), hst, hfi, hl]
    congr 2
    have h1 := hlen hs.toShaped hf
    have h2 := hlen ht.toShaped (hn ▸ hf)
    rw [hst, hfi, hl] at h1
    refine ext_bits (h1.trans h2.symm) fun i hi => ?_
    rw [h1] at hi
    have hbs := hs.bits f hf i (by rw [hl]; exact hi)
    have hbt := ht.bits f (hn ▸ hf) i hi
    rw [StateParams.filterPos, hst, hfi, hab] at hbs
    rw [bitAt_slice, bitAt_slice, decide_eq_true hi, Bool.true_and, Bool.true_and]
    exact Bool.eq_iff_iff.2 (hbs.trans hbt.symm)
  · rw [filter_eq_none hs.toShaped (by omega), filter_eq_none ht.toShaped (by omega)]

/-! ## The check -/

/-- A filter hits a digest: all bits of the digest are set. -/
def Tally.Hit (p : StateParams) (a : Tally) (f : ℕ) (d : Digest) : Prop :=
  FilterBank.Hit p.bits a.filters f d

open Classical in
/-- The filters that hit a digest. -/
noncomputable def Tally.hits (p : StateParams) (a : Tally) (d : Digest) : List ℕ :=
  (List.range p.n).filter fun f => a.Hit p f d

theorem Tally.mem_hits {p : StateParams} {a : Tally} {d : Digest} {f : ℕ} :
    f ∈ a.hits p d ↔ f < p.n ∧ a.Hit p f d := by
  simp [hits]

/-- A set of filters with room for `n` of them, if there is one. -/
def RoomFor (n : ℕ) (hits : Option Bitset) : Prop := ∀ set ∈ hits, set.Wf ∧ n ≤ set.numBits

/-- The set after marking some filters. -/
def Marked (hits hits' : Option Bitset) (filters : ℕ → Prop) : Prop :=
  match hits, hits' with
  | none, none => True
  | some set, some set' => ∀ i, bitAt set'.repr.bytes i = true ↔
      bitAt set.repr.bytes i = true ∨ filters i
  | _, _ => False

theorem Marked.congr {hits hits' : Option Bitset} {P Q : ℕ → Prop} (h : Marked hits hits' P)
    (hPQ : ∀ i, P i ↔ Q i) : Marked hits hits' Q := by
  rw [← funext fun i => propext (hPQ i)]
  exact h

/-- Marking filter `i`, if there is a set. -/
theorem markOne {n i : ℕ} (hi : i < n) {hits : Option Bitset} (hr : RoomFor n hits) :
    ∃ hits', (match hits with
        | some set => (bitsetSetBit set i).map some
        | none => some none) = some hits' ∧
      RoomFor n hits' ∧ Marked hits hits' (· = i) := by
  cases hits with
  | none => exact ⟨none, rfl, by simp [RoomFor], trivial⟩
  | some set =>
    obtain ⟨hw, hn⟩ := hr set rfl
    obtain ⟨set', hs, hw', hn', -, hb⟩ := bitsetSetBit_spec hw (show i < set.numBits by omega)
    refine ⟨some set', by dsimp only; rw [hs]; rfl, ?_, fun j => ?_⟩
    · rintro _ ⟨⟩
      exact ⟨hw', by omega⟩
    · rw [hb, Bool.or_eq_true, decide_eq_true_iff]

theorem Marked.trans {x y z : Option Bitset} {P Q : ℕ → Prop} (h₁ : Marked x y P)
    (h₂ : Marked y z Q) : Marked x z fun i => P i ∨ Q i := by
  cases x <;> cases y <;> cases z <;> first
    | exact h₁.elim
    | exact h₂.elim
    | trivial
    | exact fun i => (h₂ i).trans ((or_congr_left (h₁ i)).trans or_assoc)

section Check

variable {p : StateParams} {a : Tally} {s : HonasState}

/-- One filter. -/
theorem bloomIsSet_filter (hok : p.Ok) (h : Represents p a s) {f : ℕ} (hf : f < p.n) (d : Digest) :
    ∃ hit : Bool, bloomIsSet ⟨p.first + f * p.stride, slice s.mmap (p.first + f * p.stride) p.len⟩
      (transformed f d) p.hashes = some hit ∧ (hit = true ↔ a.Hit p f d) := by
  have htl := (transform_spec f d).2
  have hlen : (slice s.mmap (p.first + f * p.stride) p.len).length = p.len :=
    length_slice (h.toShaped.filter hf).2.2
  have he := bloomIsSet_eq
    ⟨p.first + f * p.stride, slice s.mmap (p.first + f * p.stride) p.len⟩ (transformed f d) p.hashes
    (by rw [ByteSlice.len, hlen]; exact hok.bloomOk) (by omega) (by omega)
  refine ⟨_, he, ?_⟩
  rw [List.all_eq_true, ByteSlice.len, hlen]
  refine forall_congr' fun b => forall_congr' fun hb => ?_
  have hlt := hok.offsets_lt b hb
  rw [bitAt_slice, decide_eq_true hlt, Bool.true_and]
  exact h.bits f hf b hlt

/-- **The loop over the filters.** -/
theorem checkFilters_spec (hok : p.Ok) (h : Represents p a s) (d : Digest) :
    ∀ (l : List ℕ) (count : ℕ) {hits : Option Bitset}, (∀ i ∈ l, i < p.n) → RoomFor p.n hits →
      ∃ hits', checkFilters s p.hashes d.1 l count hits =
          some (count + (open Classical in l.filter fun f => a.Hit p f d).length, hits') ∧
        RoomFor p.n hits' ∧ Marked hits hits' fun i => i ∈ l ∧ a.Hit p i d
  | [], count, hits, _, hr => ⟨hits, rfl, hr, by cases hits <;> simp [Marked]⟩
  | f :: l, count, hits, hl, hr => by
    rw [List.forall_mem_cons] at hl
    obtain ⟨hreg, hread, -⟩ := h.toShaped.filter hl.1
    obtain ⟨hit, he, hiff⟩ := bloomIsSet_filter hok h hl.1 d
    have hstep : checkFilters s p.hashes d.1 (f :: l) count hits =
        if hit then (match hits with
            | some set => (bitsetSetBit set f).map some
            | none => some none).bind
          fun hits => checkFilters s p.hashes d.1 l (count + 1) hits
        else checkFilters s p.hashes d.1 l count hits := by
      rw [checkFilters.eq_def]
      simp only [Option.bind_eq_bind, (transform_spec f d).1, Option.bind_some, hreg, hread, he]
      cases hits with
      | none => rfl
      | some set => dsimp only; cases bitsetSetBit set f <;> rfl
    rw [hstep]
    by_cases hh : a.Hit p f d
    · obtain ⟨hits₁, h₁, hr₁, hm₁⟩ := markOne hl.1 hr
      obtain ⟨hits', h', hr', hm'⟩ := checkFilters_spec hok h d l (count + 1) hl.2 hr₁
      refine ⟨hits', ?_, hr', (hm₁.trans hm').congr fun i => ?_⟩
      · rw [if_pos (hiff.2 hh), h₁, Option.bind_some, h', List.filter_cons_of_pos (by simpa using hh),
          List.length_cons, Nat.add_assoc, Nat.add_comm 1]
      · rw [List.mem_cons]
        constructor
        · rintro (rfl | ⟨hi, hhi⟩)
          · exact ⟨.inl rfl, hh⟩
          · exact ⟨.inr hi, hhi⟩
        · rintro ⟨rfl | hi, hhi⟩
          · exact .inl rfl
          · exact .inr ⟨hi, hhi⟩
    · obtain ⟨hits', h', hr', hm'⟩ := checkFilters_spec hok h d l count hl.2 hr
      refine ⟨hits', ?_, hr', hm'.congr fun i => ?_⟩
      · rw [if_neg fun ht => hh (hiff.1 ht), h', List.filter_cons_of_neg (by simpa using hh)]
      · rw [List.mem_cons]
        constructor
        · rintro ⟨hi, hhi⟩
          exact ⟨.inr hi, hhi⟩
        · rintro ⟨rfl | hi, hhi⟩
          · exact absurd hhi hh
          · exact ⟨hi, hhi⟩

/-- **The check** counts and marks the filters that hit the digest. -/
theorem check_spec (hok : p.Ok) (h : Represents p a s) (d : Digest) {hits : Option Bitset}
    (hr : RoomFor p.n hits) :
    ∃ hits', honasStateCheckHostNameLookups s d.1 hits = some ((a.hits p d).length, hits') ∧
      RoomFor p.n hits' ∧ Marked hits hits' (· ∈ a.hits p d) := by
  obtain ⟨hits', he, hr', hm⟩ := checkFilters_spec hok h d (List.range p.n) 0
    (fun i hi => List.mem_range.1 hi) hr
  refine ⟨hits', ?_, hr', hm.congr fun i => by rw [Tally.mem_hits, List.mem_range]⟩
  rw [honasStateCheckHostNameLookups, h.config .numberOfHashes rfl, h.config .numberOfFilters rfl]
  rw [Nat.zero_add] at he
  exact he

end Check

/-- At least as many filters hit as a subset of hits has. -/
theorem length_le_hits {p : StateParams} {a : Tally} {d : Digest} {k : ℕ} {l : List ℕ}
    (hs : IsSubset p.n k l) (hh : ∀ f ∈ l, a.Hit p f d) : k ≤ (a.hits p d).length := by
  have hnodup : l.Nodup := hs.sorted.imp fun h => Nat.ne_of_lt h
  have hsub : l ⊆ a.hits p d := fun f hf => Tally.mem_hits.2 ⟨hs.lt f hf, hh f hf⟩
  rw [← hs.length]
  exact (hnodup.subperm hsub).length_le

/-- A stored string hits the filters of its client. -/
theorem hit_of_stored {sha256 : List Byte → Digest} {p : StateParams} {ls : List ValidLookup}
    {l : ValidLookup} (hl : l ∈ ls) {stored : StoredName} (hs : stored ∈ l.names) {f : ℕ}
    (hf : f ∈ p.filtersOf l.hash) :
    (Tally.ofLookups sha256 p ls).Hit p f (sha256 stored.name) := by
  obtain ⟨e, he, hent⟩ := exists_event sha256 p hs
  have hmem : e.entry ∈ (eventsOf sha256 p ls).map Event.entry :=
    List.mem_map_of_mem (List.mem_flatMap.2 ⟨l, hl, he⟩)
  rw [Tally.Hit, Tally.ofLookups_filters]
  rw [hent] at hmem
  exact FilterBank.hit_of_mem hmem hf

/-- What a check reports when all filters of a list hit: the count, and the
    marks. -/
theorem check_of_hits {p : StateParams} (hok : p.Ok) {a : Tally} {s : HonasState}
    (h : Represents p a s) {d : Digest} {k : ℕ} {l : List ℕ} (hs : IsSubset p.n k l)
    (hh : ∀ f ∈ l, a.Hit p f d) {hits : Option Bitset} (hr : RoomFor p.n hits) :
    ∃ count hits', honasStateCheckHostNameLookups s d.1 hits = some (count, hits') ∧ k ≤ count ∧
      hits'.isSome = hits.isSome ∧
      ∀ set ∈ hits', ∀ f ∈ l, bitsetBitIsSet set f = some true := by
  obtain ⟨hits', he, hr', hm⟩ := check_spec hok h d hr
  refine ⟨_, hits', he, length_le_hits hs hh, by cases hits <;> cases hits' <;> simp_all [Marked],
    fun set hset f hf => ?_⟩
  obtain ⟨hw, hn⟩ := hr' set hset
  have hlt := hs.lt f hf
  have hroom := hw.room
  obtain ⟨set₀, rfl⟩ : ∃ set₀, hits = some set₀ := by
    cases hits with
    | none => rw [Option.mem_def.1 hset] at hm; exact hm.elim
    | some set₀ => exact ⟨set₀, rfl⟩
  rw [Option.mem_def.1 hset] at hm
  have hbit := (hm f).2 (.inr (Tally.mem_hits.2 ⟨hlt, hh f hf⟩))
  rw [bitsetBitIsSet, if_pos (by omega), byteSliceBitIsSet_eq (by omega), hbit]

/-- **The filters after lookups on a new state**: a bit is set exactly if some
    lookup stored it, so order and repetition do not matter; and every stored
    string is found in all filters of its client. -/
theorem filters_of_lookups {p : StateParams} (hok : p.Ok) (sha256 : List Byte → Digest)
    (dryrun : Option ValidDryRun) (ls : List ValidLookup) :
    ∃ s₀ s dryrun', honasStateCreate p = some (.ok s₀) ∧
      registerAll sha256 s₀ (dryrun.map ValidDryRun.counters) ls = some (s, dryrun') ∧
      (∀ f < p.n, ∀ b < 8 * p.len, s.filterBit f b = true ↔
        ∃ l ∈ ls, f ∈ p.filtersOf l.hash ∧
          ∃ stored ∈ l.names, b ∈ p.offsets f (sha256 stored.name)) ∧
      (∀ ls' : List ValidLookup, (∀ l, l ∈ ls' ↔ l ∈ ls) → ∃ s' dryrun'',
        registerAll sha256 s₀ (dryrun.map ValidDryRun.counters) ls' = some (s', dryrun'') ∧
          ∀ f, s'.filter f = s.filter f) ∧
      ∀ l ∈ ls, ∀ stored ∈ l.names, ∀ hits, RoomFor p.n hits → ∃ count hits',
        honasStateCheckHostNameLookups s (sha256 stored.name).1 hits = some (count, hits') ∧
          p.perUser ≤ count ∧ hits'.isSome = hits.isSome ∧
          ∀ set ∈ hits', ∀ f ∈ p.filtersOf l.hash, bitsetBitIsSet set f = some true := by
  obtain ⟨s₀, hc, h₀, ho₀⟩ := honasStateCreate_represents hok
  have hrun : ∀ ls, ∃ s dryrun',
      registerAll sha256 s₀ (dryrun.map ValidDryRun.counters) ls = some (s, dryrun') ∧
        Represents p (.ofLookups sha256 p ls) s := fun ls => by
    obtain ⟨s, dryrun', he, h, -⟩ := registerAll_represents sha256 hok h₀ ho₀ dryrun ls
    exact ⟨s, _, he, h⟩
  obtain ⟨s, dryrun', he, h⟩ := hrun ls
  refine ⟨s₀, s, dryrun', hc, he, fun f hf b hb => ?_, fun ls' hls => ?_,
    fun l hl stored hs hits hr => ?_⟩
  · rw [filterBit_eq h.toShaped hf hb, h.bits f hf b hb, Tally.mem_ofLookups_filters]
  · obtain ⟨s', dryrun'', he', h'⟩ := hrun ls'
    exact ⟨s', dryrun'', he',
      fun f => h'.filter_congr h rfl rfl (Tally.ofLookups_filters_congr hls) f⟩
  · obtain ⟨-, -, -, -, hsub⟩ := hok.filtersOf_spec l.hash
    exact check_of_hits hok h hsub (fun f hf => hit_of_stored hl hs hf) hr

/-- A lookup of `a.b` by a client with the address zero. -/
def smallLookup (timestamp : BitVec 64) : ValidLookup where
  timestamp
  client := .inet 0
  client_ok := Option.isSome_some
  hostName := [0x61, 0x2e, 0x62]
  hostName_ne := by simp
  hostName_le := by simp
  entity := none
  qtype := 1

/-- A digest of zeros. -/
def zeroDigest : Digest := ⟨List.replicate 32 0, rfl⟩

/-- A lookup of `c.d` by another client. -/
def otherLookup (timestamp : BitVec 64) : ValidLookup where
  timestamp
  client := .inet 1
  client_ok := Option.isSome_some
  hostName := [0x63, 0x2e, 0x64]
  hostName_ne := by simp
  hostName_le := by simp
  entity := none
  qtype := 1

/-- A digest that differs for names with different first bytes. -/
def headDigest (name : List Byte) : Digest :=
  ⟨List.replicate 32 (name.headD 0), List.length_replicate⟩

/-- Two lookups on two filters, in either order and one of them twice. -/
theorem filters_of_twoLookups : ∃ s₀ s t dryrun₁ dryrun₂,
    honasStateCreate onePerUser = some (.ok s₀) ∧
    registerAll headDigest s₀ none [smallLookup 1, otherLookup 2] = some (s, dryrun₁) ∧
    registerAll headDigest s₀ none [otherLookup 2, smallLookup 1, otherLookup 2] =
      some (t, dryrun₂) ∧
    (∀ f, t.filter f = s.filter f) ∧
    ∀ l ∈ [smallLookup 1, otherLookup 2], ∀ stored ∈ l.names, ∃ count hits',
      honasStateCheckHostNameLookups s (headDigest stored.name).1 (some (bitsetCreate 2)) =
        some (count, hits') ∧ 1 ≤ count := by
  obtain ⟨s₀, s, dryrun₁, hc, he, -, horder, hcheck⟩ :=
    filters_of_lookups onePerUser_ok headDigest none [smallLookup 1, otherLookup 2]
  have hmem : ∀ x y l : ValidLookup, l ∈ [y, x, y] ↔ l ∈ [x, y] := by
    intro x y l
    simp only [List.mem_cons, List.not_mem_nil, or_false]
    rw [or_left_comm, or_self]
  obtain ⟨t, dryrun₂, he', hfilter⟩ := horder _ (hmem (smallLookup 1) (otherLookup 2))
  refine ⟨s₀, s, t, dryrun₁, dryrun₂, hc, he, he', hfilter, fun l hl stored hstored => ?_⟩
  obtain ⟨count, hits', h, hle, -⟩ := hcheck l hl stored hstored (some (bitsetCreate 2)) (by
    rintro _ ⟨⟩
    exact ⟨bitsetCreate_wf (by norm_num), le_rfl⟩)
  exact ⟨count, hits', h, hle⟩

end Honas

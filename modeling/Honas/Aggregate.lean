/-
  Aggregating states.

  A tree of creating, registering and combining says how a state came about.
  The state keeps the tally of the tree (`StateTree.eval_represents`), whose
  filters are those of all lookups in it, so combining is a union in any order
  (`combine_of_lookups`).

  Two things do not survive combining: the request times, when one of the
  states has no requests yet (`combined_times_iff`), and the number of filters
  per user, which combining does not compare (`check_of_tree`).
-/
import Honas.StateCombine

namespace Honas

open Bits

/-! ## Trees -/

/-- How a state came about. -/
inductive StateTree where
  | create (p : StateParams)
  | register (state : StateTree) (l : ValidLookup) (dryrun : Option ValidDryRun)
  | combine (target source : StateTree)

namespace StateTree

/-- The state, if no step fails and no combination is refused. -/
def eval (sha256 : List Byte → Digest) : StateTree → Option HonasState
  | create p =>
    match honasStateCreate p with
    | some (.ok state) => some state
    | _ => none
  | register state l dryrun => do
    let state ← state.eval sha256
    let (state, _) ← honasStateRegisterHostNameLookup sha256 state l.toLookup
      (dryrun.map ValidDryRun.counters)
    some state
  | combine target source => do
    let target ← target.eval sha256
    let source ← source.eval sha256
    match ← honasStateAggregateCombine target source with
    | (true, target, _) => some target
    | (false, _, _) => none

/-- The parameters of the state. -/
def params : StateTree → StateParams
  | create p => p
  | register state _ _ => state.params
  | combine target _ => target.params

/-- The lookups, each with the parameters of the state it was registered on. -/
def registrations : StateTree → List (StateParams × ValidLookup)
  | create _ => []
  | register state l _ => state.registrations ++ [(state.params, l)]
  | combine target source => target.registrations ++ source.registrations

/-- The tally of the state. -/
def tally (sha256 : List Byte → Digest) : StateTree → Tally
  | create _ => .empty
  | register state l _ => (state.tally sha256).run state.params (l.events sha256 state.params)
  | combine target source => (target.tally sha256).combine (source.tally sha256)

/-- A condition on the parameters of all states that were created. -/
def AllParams (P : StateParams → Prop) : StateTree → Prop
  | create p => P p
  | register state _ _ => state.AllParams P
  | combine target source => target.AllParams P ∧ source.AllParams P

theorem AllParams.params {P : StateParams → Prop} : ∀ {t : StateTree}, t.AllParams P → P t.params
  | create _, h => h
  | register state _ _, h => AllParams.params (t := state) h
  | StateTree.combine target _, h => AllParams.params (t := target) h.1

theorem AllParams.mono {P Q : StateParams → Prop} : ∀ {t : StateTree}, t.AllParams P →
    (∀ q, P q → Q q) → t.AllParams Q
  | create _, h, hPQ => hPQ _ h
  | register state _ _, h, hPQ => AllParams.mono (t := state) h hPQ
  | StateTree.combine target source, h, hPQ =>
    ⟨AllParams.mono (t := target) h.1 hPQ, AllParams.mono (t := source) h.2 hPQ⟩

theorem AllParams.registrations {P : StateParams → Prop} : ∀ {t : StateTree}, t.AllParams P →
    ∀ r ∈ t.registrations, P r.1
  | create _, _, r, hr => absurd hr (by simp [StateTree.registrations])
  | register state l _, h, r, hr => by
    rw [StateTree.registrations, List.mem_append, List.mem_singleton] at hr
    rcases hr with hr | rfl
    · exact AllParams.registrations (t := state) h r hr
    · exact AllParams.params (t := state) h
  | StateTree.combine target source, h, r, hr => by
    rw [StateTree.registrations, List.mem_append] at hr
    rcases hr with hr | hr
    · exact AllParams.registrations (t := target) h.1 r hr
    · exact AllParams.registrations (t := source) h.2 r hr

end StateTree

/-- The filters after one more lookup. -/
theorem mem_run_events {sha256 : List Byte → Digest} {p : StateParams} {a : Tally} {l : ValidLookup}
    {f b : ℕ} : (f, b) ∈ (a.run p (l.events sha256 p)).filters ↔ (f, b) ∈ a.filters ∨
      f ∈ p.filtersOf l.hash ∧ ∃ stored ∈ l.names, b ∈ p.offsets f (sha256 stored.name) := by
  have h := @Tally.mem_ofLookups_filters p sha256 [l] f b
  rw [Tally.ofLookups_filters, eventsOf, List.flatMap_singleton] at h
  simp only [List.mem_singleton, exists_eq_left] at h
  rw [Tally.run_filters, Set.mem_union, h]

/-- **The filters of a tree** are those of its lookups. -/
theorem StateTree.mem_tally_filters {sha256 : List Byte → Digest} {f b : ℕ} : ∀ {t : StateTree},
    (f, b) ∈ (t.tally sha256).filters ↔ ∃ r ∈ t.registrations, f ∈ r.1.filtersOf r.2.hash ∧
      ∃ stored ∈ r.2.names, b ∈ r.1.offsets f (sha256 stored.name)
  | create _ => by simp [tally, registrations, Tally.empty]
  | register state l _ => by
    rw [tally, mem_run_events, mem_tally_filters (t := state), registrations]
    simp only [List.mem_append, List.mem_singleton, or_and_right, exists_or, exists_eq_left]
  | combine target source => by
    have h : (f, b) ∈ ((combine target source).tally sha256).filters ↔
        (f, b) ∈ (target.tally sha256).filters ∨ (f, b) ∈ (source.tally sha256).filters := Iff.rfl
    rw [h, mem_tally_filters (t := target), mem_tally_filters (t := source), registrations]
    simp only [List.mem_append, or_and_right, exists_or]

namespace Compatible

theorem offsets {p q : StateParams} (h : Compatible p q) (f : ℕ) (d : Digest) :
    p.offsets f d = q.offsets f d := by
  rw [StateParams.offsets, h.len, h.hashes]; rfl

end Compatible

/-! ## What a tree keeps -/

/-- A call changes the state as its events do. -/
theorem register_represents (sha256 : List Byte → Digest) {p : StateParams} (hok : p.Ok) {a : Tally}
    {s : HonasState} (h : Represents p a s) (ho : Owned p s) (l : ValidLookup)
    (dryrun : Option ValidDryRun) :
    ∃ s' dryrun', honasStateRegisterHostNameLookup sha256 s l.toLookup
        (dryrun.map ValidDryRun.counters) = some (s', dryrun') ∧
      Represents p (a.run p (l.events sha256 p)) s' ∧ Owned p s' := by
  obtain ⟨s', dryrun', he, h', ho'⟩ := registerAll_represents sha256 hok h ho dryrun [l]
  rw [eventsOf, List.flatMap_singleton] at h'
  refine ⟨s', dryrun'.map ValidDryRun.counters, ?_, h', ho'⟩
  rw [registerAll, List.foldlM_cons] at he
  obtain ⟨r, hr, hnil⟩ := Option.bind_eq_some_iff.1 he
  rw [List.foldlM_nil] at hnil
  rw [hr]; exact hnil

/-- **A state keeps the tally of its tree**, and everything in the tree was
    created with parameters that can be combined. -/
theorem StateTree.eval_represents {sha256 : List Byte → Digest} : ∀ {t : StateTree} {s : HonasState},
    t.eval sha256 = some s → t.params.Ok ∧ Represents t.params (t.tally sha256) s ∧ Owned t.params s ∧
      t.AllParams fun q => q.Ok ∧ Compatible t.params q
  | create p, s, h => by
    rw [eval] at h
    split at h
    next state hc =>
      rw [Option.some_inj] at h
      subst h
      have hok := ok_of_create hc
      obtain ⟨s, hc', hr, ho⟩ := honasStateCreate_represents hok
      rw [hc, Option.some_inj, Except.ok.injEq] at hc'
      subst hc'
      exact ⟨hok, hr, ho, hok, .refl p⟩
    next => exact absurd h (by simp)
  | register state l dryrun, s, h => by
    rw [eval] at h
    obtain ⟨s₁, he₁, h⟩ := Option.bind_eq_some_iff.1 h
    obtain ⟨⟨s₂, dryrun₂⟩, he₂, h⟩ := Option.bind_eq_some_iff.1 h
    rw [Option.some_inj] at h
    subst h
    obtain ⟨hok, hr, ho, hall⟩ := eval_represents he₁
    obtain ⟨s', dryrun', he', hr', ho'⟩ := register_represents sha256 hok hr ho l dryrun
    rw [he₂, Option.some_inj, Prod.mk.injEq] at he'
    obtain ⟨rfl, -⟩ := he'
    exact ⟨hok, hr', ho', hall⟩
  | combine target source, s, h => by
    rw [eval] at h
    obtain ⟨s₁, he₁, h⟩ := Option.bind_eq_some_iff.1 h
    obtain ⟨s₂, he₂, h⟩ := Option.bind_eq_some_iff.1 h
    obtain ⟨hok₁, hr₁, ho₁, hall₁⟩ := eval_represents he₁
    obtain ⟨hok₂, hr₂, ho₂, hall₂⟩ := eval_represents he₂
    obtain ⟨r, hc, h⟩ := Option.bind_eq_some_iff.1 h
    by_cases hpq : Compatible target.params source.params
    · obtain ⟨s', t', he', hr', ho', -⟩ := combine_represents hpq hr₁ ho₁ hr₂ ho₂
      rw [hc, Option.some_inj] at he'
      subst he'
      rw [← Option.some_inj.1 h]
      exact ⟨hok₁, hr', ho', hall₁, hall₂.mono fun q hq => ⟨hq.1, hpq.trans hq.2⟩⟩
    · rw [combine_refused hr₁.toShaped hr₂.toShaped hpq, Option.some_inj] at hc
      subst hc
      exact absurd h (by simp)

/-- A tree whose parameters can all be combined has a state. -/
theorem StateTree.exists_eval (sha256 : List Byte → Digest) {p : StateParams} : ∀ {t : StateTree},
    (t.AllParams fun q => q.Ok ∧ Compatible p q) → ∃ s, t.eval sha256 = some s
  | create q, h => by
    obtain ⟨s, hc, -⟩ := honasStateCreate_represents h.1
    exact ⟨s, by rw [eval, hc]⟩
  | register state l dryrun, h => by
    obtain ⟨s, he⟩ := exists_eval sha256 (t := state) h
    obtain ⟨hok, hr, ho, -⟩ := eval_represents he
    obtain ⟨s', dryrun', he', -⟩ := register_represents sha256 hok hr ho l dryrun
    refine ⟨s', ?_⟩
    rw [eval, he]
    simp only [Option.bind_eq_bind, Option.bind_some, he']
  | combine target source, h => by
    obtain ⟨s₁, he₁⟩ := exists_eval sha256 h.1
    obtain ⟨s₂, he₂⟩ := exists_eval sha256 h.2
    obtain ⟨-, hr₁, ho₁, -⟩ := eval_represents he₁
    obtain ⟨-, hr₂, ho₂, -⟩ := eval_represents he₂
    have h₁ : Compatible p target.params := h.1.params.2
    have h₂ : Compatible p source.params := h.2.params.2
    obtain ⟨s', t', he', -⟩ := combine_represents (h₁.symm.trans h₂) hr₁ ho₁ hr₂ ho₂
    refine ⟨s', ?_⟩
    rw [eval, he₁, he₂]
    simp only [Option.bind_eq_bind, Option.bind_some, he']

/-! ## Combining two states -/

section

variable {sha256 : List Byte → Digest} {p q : StateParams} {A B : List ValidLookup}
  {dryrunA dryrunB : Option ValidDryRun}

/-- A new state after some lookups. -/
theorem exists_registered (hp : p.Ok) (sha256 : List Byte → Digest) (ls : List ValidLookup)
    (dryrun : Option ValidDryRun) :
    ∃ s₀ s dryrun', honasStateCreate p = some (.ok s₀) ∧
      registerAll sha256 s₀ (dryrun.map ValidDryRun.counters) ls = some (s, dryrun') ∧
      Represents p (.ofLookups sha256 p ls) s ∧ Owned p s := by
  obtain ⟨s₀, hc, h₀, ho₀⟩ := honasStateCreate_represents hp
  obtain ⟨s, dryrun', he, h, ho⟩ := registerAll_represents sha256 hp h₀ ho₀ dryrun ls
  exact ⟨s₀, s, _, hc, he, h, ho⟩

/-- The same, for a given state. -/
theorem registered_represents {s₀ s : HonasState} {dryrun : Option ValidDryRun}
    {dryrun' : Option DryRunCounters} {ls : List ValidLookup}
    (hc : honasStateCreate p = some (.ok s₀))
    (he : registerAll sha256 s₀ (dryrun.map ValidDryRun.counters) ls = some (s, dryrun')) :
    Represents p (.ofLookups sha256 p ls) s ∧ Owned p s := by
  obtain ⟨s₀', s', dryrun'', hc', he', h, ho⟩ :=
    exists_registered (ok_of_create hc) sha256 ls dryrun
  rw [hc, Option.some_inj, Except.ok.injEq] at hc'
  subst hc'
  rw [he, Option.some_inj, Prod.mk.injEq] at he'
  obtain ⟨rfl, -⟩ := he'
  exact ⟨h, ho⟩

/-- What a combined state keeps. -/
theorem combined_represents {s₀ t₀ s t s' t' : HonasState} {dryrun dryrun' : Option DryRunCounters}
    (hs₀ : honasStateCreate p = some (.ok s₀)) (ht₀ : honasStateCreate q = some (.ok t₀))
    (hs : registerAll sha256 s₀ (dryrunA.map ValidDryRun.counters) A = some (s, dryrun))
    (ht : registerAll sha256 t₀ (dryrunB.map ValidDryRun.counters) B = some (t, dryrun'))
    (hc : honasStateAggregateCombine s t = some (true, s', t')) :
    Represents p ((Tally.ofLookups sha256 p A).combine (.ofLookups sha256 q B)) s' := by
  obtain ⟨hrs, hos⟩ := registered_represents hs₀ hs
  obtain ⟨hrt, hot⟩ := registered_represents ht₀ ht
  by_cases hpq : Compatible p q
  · obtain ⟨s'', t'', hc', h, -⟩ := combine_represents hpq hrs hos hrt hot
    rw [hc, Option.some_inj, Prod.mk.injEq, Prod.mk.injEq] at hc'
    rw [hc'.2.1]; exact h
  · rw [combine_refused hrs.toShaped hrt.toShaped hpq] at hc
    exact absurd hc (by simp)

end

/-- Parameters that select the same filters and bits. -/
structure SameSelection (p q : StateParams) : Prop extends Compatible p q where
  perUser : p.perUser = q.perUser

theorem SameSelection.filtersOf {p q : StateParams} (h : SameSelection p q) (hash : BitVec 64) :
    p.filtersOf hash = q.filtersOf hash := by
  rw [StateParams.filtersOf, h.filters, h.perUser]; rfl

/-- The lookups of a tree. -/
def StateTree.lookups (t : StateTree) : List ValidLookup := t.registrations.map Prod.snd

/-- All states of a tree are created with parameters that are in order and
    select as `p` does. -/
def StateTree.Like (p : StateParams) (t : StateTree) : Prop :=
  t.AllParams fun q => q.Ok ∧ SameSelection p q

/-- The filters of such a tree. -/
theorem StateTree.Like.mem_filters {sha256 : List Byte → Digest} {p : StateParams} {t : StateTree}
    (h : t.Like p) {f b : ℕ} : (f, b) ∈ (t.tally sha256).filters ↔ ∃ l ∈ t.lookups,
      f ∈ p.filtersOf l.hash ∧ ∃ stored ∈ l.names, b ∈ p.offsets f (sha256 stored.name) := by
  have hreg := StateTree.AllParams.registrations h
  rw [StateTree.mem_tally_filters, StateTree.lookups]
  simp only [List.mem_map, exists_exists_and_eq_and]
  refine exists_congr fun r => and_congr_right fun hr => ?_
  obtain ⟨-, hpq⟩ := hreg r hr
  rw [hpq.filtersOf]
  simp only [hpq.offsets]

/-- **Combining is the union of the lookups.**  The combined state of two runs
    has the filters and the number of requests of one state with both; and the
    filters of a state that is combined from any number of states depend only
    on which lookups are in it. -/
theorem combine_of_lookups {p q : StateParams} (hp : p.Ok) (hq : q.Ok) (hpq : SameSelection p q)
    (sha256 : List Byte → Digest) (A B : List ValidLookup) (dryrunA dryrunB : Option ValidDryRun) :
    (∃ s₀ t₀ s t both s' t' dryrun₁ dryrun₂ dryrun₃, honasStateCreate p = some (.ok s₀) ∧
      honasStateCreate q = some (.ok t₀) ∧
      registerAll sha256 s₀ (dryrunA.map ValidDryRun.counters) A = some (s, dryrun₁) ∧
      registerAll sha256 t₀ (dryrunB.map ValidDryRun.counters) B = some (t, dryrun₂) ∧
      registerAll sha256 s₀ (dryrunA.map ValidDryRun.counters) (A ++ B) = some (both, dryrun₃) ∧
      honasStateAggregateCombine s t = some (true, s', t') ∧
      (∀ f, s'.filter f = both.filter f) ∧
      s'.header .numberOfRequests = both.header .numberOfRequests) ∧
    ∀ T₁ T₂ : StateTree, T₁.Like p → T₂.Like p → (∀ l, l ∈ T₁.lookups ↔ l ∈ T₂.lookups) →
      ∃ s₁ s₂, T₁.eval sha256 = some s₁ ∧ T₂.eval sha256 = some s₂ ∧
        ∀ f, s₁.filter f = s₂.filter f := by
  constructor
  · obtain ⟨s₀, s, dryrun₁, hs₀, hs, hrs, hos⟩ := exists_registered hp sha256 A dryrunA
    obtain ⟨t₀, t, dryrun₂, ht₀, ht, hrt, hot⟩ := exists_registered hq sha256 B dryrunB
    obtain ⟨s₀', both, dryrun₃, hs₀', hb, hrb, -⟩ := exists_registered hp sha256 (A ++ B) dryrunA
    rw [hs₀, Option.some_inj, Except.ok.injEq] at hs₀'
    subst hs₀'
    obtain ⟨s', t', hc, hr, -⟩ := combine_represents hpq.toCompatible hrs hos hrt hot
    have hfilters : ((Tally.ofLookups sha256 p A).combine (.ofLookups sha256 q B)).filters =
        (Tally.ofLookups sha256 p (A ++ B)).filters := by
      have hB : (Tally.ofLookups sha256 q B).filters = (Tally.ofLookups sha256 p B).filters := by
        refine Set.ext fun ⟨f, b⟩ => ?_
        rw [Tally.mem_ofLookups_filters, Tally.mem_ofLookups_filters]
        simp only [hpq.filtersOf, hpq.offsets]
      rw [Tally.ofLookups_filters_append, ← hB]
      rfl
    refine ⟨s₀, t₀, s, t, both, s', t', dryrun₁, dryrun₂, dryrun₃, hs₀, ht₀, hs, ht, hb, hc,
      hr.filter_congr hrb rfl rfl hfilters, ?_⟩
    rw [hr.requests, hrb.requests, Tally.ofLookups_requests, List.length_append, Tally.combine,
      Tally.ofLookups_requests, Tally.ofLookups_requests]
  · intro T₁ T₂ h₁ h₂ hls
    have hcompat : ∀ {T : StateTree}, T.Like p → T.AllParams fun q => q.Ok ∧ Compatible p q :=
      fun h => StateTree.AllParams.mono h fun q hq => ⟨hq.1, hq.2.toCompatible⟩
    obtain ⟨s₁, he₁⟩ := StateTree.exists_eval sha256 (hcompat h₁)
    obtain ⟨s₂, he₂⟩ := StateTree.exists_eval sha256 (hcompat h₂)
    obtain ⟨-, hr₁, -⟩ := StateTree.eval_represents he₁
    obtain ⟨-, hr₂, -⟩ := StateTree.eval_represents he₂
    have hp₁ := (hcompat h₁).params.2
    have hp₂ := (hcompat h₂).params.2
    refine ⟨s₁, s₂, he₁, he₂, hr₁.filter_congr hr₂ (hp₁.filters.symm.trans hp₂.filters)
      (hp₁.len.symm.trans hp₂.len) (Set.ext fun ⟨f, b⟩ => ?_)⟩
    rw [h₁.mem_filters, h₂.mem_filters]
    simp only [hls]

/-- One lookup on each side; and the two states combined the other way round. -/
theorem combine_of_twoLookups : (∃ s₀ s t both s' t' dryrun₁ dryrun₂ dryrun₃,
      honasStateCreate onePerUser = some (.ok s₀) ∧
      registerAll headDigest s₀ none [smallLookup 1] = some (s, dryrun₁) ∧
      registerAll headDigest s₀ none [otherLookup 2] = some (t, dryrun₂) ∧
      registerAll headDigest s₀ none [smallLookup 1, otherLookup 2] = some (both, dryrun₃) ∧
      honasStateAggregateCombine s t = some (true, s', t') ∧
      (∀ f, s'.filter f = both.filter f) ∧
      s'.header .numberOfRequests = both.header .numberOfRequests) ∧
    ∃ s₁ s₂,
      (StateTree.combine (.register (.create onePerUser) (smallLookup 1) none)
        (.register (.create onePerUser) (otherLookup 2) none)).eval headDigest = some s₁ ∧
      (StateTree.combine (.register (.create onePerUser) (otherLookup 2) none)
        (.register (.create onePerUser) (smallLookup 1) none)).eval headDigest = some s₂ ∧
      ∀ f, s₁.filter f = s₂.filter f := by
  have hsame : SameSelection onePerUser onePerUser := ⟨.refl _, rfl⟩
  obtain ⟨⟨s₀, t₀, s, t, both, s', t', dryrun₁, dryrun₂, dryrun₃, hs₀, ht₀, hs, ht, hb, hc, hf⟩,
    htrees⟩ := combine_of_lookups onePerUser_ok onePerUser_ok hsame headDigest [smallLookup 1]
      [otherLookup 2] none none
  rw [hs₀, Option.some_inj, Except.ok.injEq] at ht₀
  subst ht₀
  refine ⟨⟨s₀, s, t, both, s', t', dryrun₁, dryrun₂, dryrun₃, hs₀, hs, ht, hb, hc, hf⟩,
    htrees _ _ ⟨⟨onePerUser_ok, hsame⟩, onePerUser_ok, hsame⟩
      ⟨⟨onePerUser_ok, hsame⟩, onePerUser_ok, hsame⟩ fun l => ?_⟩
  exact List.Perm.mem_iff (List.Perm.swap (otherLookup 2) (smallLookup 1) [])

/-! ## The number of filters per user -/

/-- **A registered string is found** in as many filters as the state it was
    registered on has per user; this is enough if the final state does not have
    more per user. -/
theorem check_of_tree {sha256 : List Byte → Digest} {t : StateTree} {s : HonasState}
    (he : t.eval sha256 = some s)
    (hu : ∀ r ∈ t.registrations, t.params.perUser ≤ r.1.perUser) :
    ∀ r ∈ t.registrations, ∀ stored ∈ r.2.names, ∀ hits,
      RoomFor (s.header .numberOfFilters) hits → ∃ count hits',
        honasStateCheckHostNameLookups s (sha256 stored.name).1 hits = some (count, hits') ∧
          s.header .numberOfFiltersPerUser ≤ count := by
  intro r hr stored hs hits hroom
  obtain ⟨hok, hrep, -, hall⟩ := StateTree.eval_represents he
  obtain ⟨hrok, hcompat⟩ := hall.registrations r hr
  obtain ⟨-, -, -, -, hsub⟩ := hrok.filtersOf_spec r.2.hash
  rw [← hcompat.filters] at hsub
  rw [hrep.config .numberOfFilters rfl] at hroom
  have hhit : ∀ f ∈ r.1.filtersOf r.2.hash,
      (t.tally sha256).Hit t.params f (sha256 stored.name) := by
    intro f hf b hb
    refine StateTree.mem_tally_filters.2 ⟨r, hr, hf, stored, hs, ?_⟩
    rw [← hcompat.offsets]; exact hb
  obtain ⟨count, hits', hc, hle, -⟩ := check_of_hits hok hrep hsub hhit hroom
  refine ⟨count, hits', hc, ?_⟩
  rw [hrep.config .numberOfFiltersPerUser rfl]
  exact (hu r hr).trans hle

/-- A lookup in one filter, combined with a lookup in two. -/
def firstPerUserTree : StateTree :=
  .combine (.register (.create onePerUser) (otherLookup 2) none)
    (.register (.create twoPerUser) (smallLookup 1) none)

/-- The header of the combined state asks for one filter per user, so the strings of both
    lookups are found. -/
theorem check_of_firstPerUserTree : ∃ s, firstPerUserTree.eval headDigest = some s ∧
    s.header .numberOfFiltersPerUser = 1 ∧
    firstPerUserTree.registrations = [(onePerUser, otherLookup 2), (twoPerUser, smallLookup 1)] ∧
    ∀ r ∈ firstPerUserTree.registrations, ∀ stored ∈ r.2.names, ∃ count hits',
      honasStateCheckHostNameLookups s (headDigest stored.name).1 none = some (count, hits') ∧
        s.header .numberOfFiltersPerUser ≤ count := by
  have hregs : firstPerUserTree.registrations =
      [(onePerUser, otherLookup 2), (twoPerUser, smallLookup 1)] := rfl
  obtain ⟨s, he⟩ := StateTree.exists_eval headDigest (p := onePerUser) (t := firstPerUserTree)
    ⟨⟨onePerUser_ok, .refl _⟩, twoPerUser_ok, rfl, rfl, rfl⟩
  obtain ⟨-, hrep, -⟩ := StateTree.eval_represents he
  refine ⟨s, he, hrep.config .numberOfFiltersPerUser rfl, hregs, fun r hr stored hstored => ?_⟩
  refine check_of_tree he (fun r hr => ?_) r hr stored hstored none fun set hset => nomatch hset
  rw [hregs] at hr
  obtain rfl | hr := List.mem_cons.1 hr
  · exact le_rfl
  · obtain rfl := List.mem_singleton.1 hr
    exact show 1 ≤ 2 by decide

/-- A filter hits only if something was stored in it. -/
theorem length_hits_le {p : StateParams} (hok : p.Ok) {a : Tally} {d : Digest} {l : List ℕ}
    (h : ∀ f b, (f, b) ∈ a.filters → f ∈ l) : (a.hits p d).length ≤ l.length := by
  have hne : ∀ f, p.offsets f d ≠ [] := by
    intro f
    have hl := (transform_spec f d).2
    obtain ⟨offsets, he, hlen, -⟩ := bloomDetermineOffsets_spec hok.len_pos p.len_lt hok.hashes
      (show 0 < (transformed f d).length by omega) (show (transformed f d).length % 4 = 0 by omega)
    have hk := hok.hashes
    rw [StateParams.offsets, bloomOffsets, he, Option.getD_some, ← List.length_pos_iff]
    omega
  have hnodup : (a.hits p d).Nodup := List.nodup_range.filter _
  refine (hnodup.subperm fun f hf => ?_).length_le
  obtain ⟨b, hb⟩ := List.exists_mem_of_ne_nil _ (hne f)
  exact h f b ((Tally.mem_hits.1 hf).2 b hb)

/-- A state with two filters per user, combined with a lookup in one filter. -/
def mixedTree : StateTree :=
  .combine (.create twoPerUser) (.register (.create onePerUser) (smallLookup 1) none)

/-- Combining a state with two filters per user and one with one: the lookup of
    the latter is found in too few filters. -/
theorem check_of_mixedTree : ∃ s stored count hits',
    mixedTree.eval (fun _ => zeroDigest) = some s ∧
    (∃ r ∈ mixedTree.registrations, stored ∈ r.2.names) ∧
    honasStateCheckHostNameLookups s ((fun _ => zeroDigest) stored.name).1 none =
      some (count, hits') ∧
    count < s.header .numberOfFiltersPerUser := by
  have hmem : ∀ r ∈ mixedTree.registrations, r = (onePerUser, smallLookup 1) :=
    fun r hr => List.mem_singleton.1 hr
  obtain ⟨s, he⟩ := StateTree.exists_eval (fun _ => zeroDigest) (p := twoPerUser)
    (t := mixedTree) ⟨⟨twoPerUser_ok, .refl _⟩, onePerUser_ok, rfl, rfl, rfl⟩
  obtain ⟨-, hrep, -⟩ := StateTree.eval_represents he
  obtain ⟨stored, names, hn⟩ := List.exists_cons_of_ne_nil (smallLookup 1).names_ne_nil
  obtain ⟨hits', hc, -⟩ := check_spec twoPerUser_ok hrep zeroDigest
    (show RoomFor _ none from fun set hset => nomatch hset)
  obtain ⟨-, -, -, -, hsub⟩ := onePerUser_ok.filtersOf_spec (smallLookup 1).hash
  have hle : ((mixedTree.tally fun _ => zeroDigest).hits twoPerUser zeroDigest).length ≤ 1 := by
    refine (length_hits_le twoPerUser_ok fun f b hb => ?_).trans hsub.length.le
    obtain ⟨r, hr, hf, -⟩ := StateTree.mem_tally_filters.1 hb
    rw [hmem r hr] at hf
    exact hf
  refine ⟨s, stored, _, hits', he, ⟨_, List.mem_singleton_self _, by rw [hn]; simp⟩, hc, ?_⟩
  rw [hrep.config .numberOfFiltersPerUser rfl]
  exact lt_of_le_of_lt hle (show 1 < twoPerUser.perUser by decide)

/-! ## Request times -/

/-- The request times after lookups with positive, nondecreasing timestamps are
    the smallest and the largest timestamp. -/
theorem foldl_nextTimes : ∀ {ls : List ValidLookup}, ls ≠ [] →
    ls.Pairwise (fun l l' => l.timestamp.toNat ≤ l'.timestamp.toNat) →
    (∀ l ∈ ls, 0 < l.timestamp.toNat) →
    IsLeast {t | ∃ l ∈ ls, l.timestamp.toNat = t}
        (ls.foldl (fun times l => nextTimes times l.timestamp.toNat) (0, 0)).1 ∧
      IsGreatest {t | ∃ l ∈ ls, l.timestamp.toNat = t}
        (ls.foldl (fun times l => nextTimes times l.timestamp.toNat) (0, 0)).2 := by
  intro ls
  induction ls using List.reverseRecOn with
  | nil => intro h; exact absurd rfl h
  | append_singleton ls l ih =>
    intro _ hsorted hpos
    rw [List.pairwise_append] at hsorted
    obtain ⟨hs, -, hle⟩ := hsorted
    have hl := hpos l (by simp)
    rw [List.foldl_append, List.foldl_cons, List.foldl_nil]
    by_cases hnil : ls = []
    · subst hnil
      simp [nextTimes, hl, IsLeast, IsGreatest, lowerBounds, upperBounds]
    · obtain ⟨⟨⟨l₁, hl₁, h₁⟩, hleast⟩, ⟨l₂, hl₂, h₂⟩, hgreatest⟩ :=
        ih hnil hs fun l' hl' => hpos l' (by simp [hl'])
      generalize ls.foldl (fun times l => nextTimes times l.timestamp.toNat) (0, 0) = times at *
      have h₁₀ := hpos l₁ (by simp [hl₁])
      have h₁l := hle l₁ hl₁ l (by simp)
      have h₂l := hle l₂ hl₂ l (by simp)
      have hfirst : (nextTimes times l.timestamp.toNat).1 = times.1 := by
        unfold nextTimes
        split_ifs with h h0
        · omega
        · rfl
        · rfl
      have hlast : (nextTimes times l.timestamp.toNat).2 = l.timestamp.toNat := by
        unfold nextTimes
        split_ifs with h h0
        · rfl
        · rfl
        · omega
      rw [hfirst, hlast]
      refine ⟨⟨⟨l₁, by simp [hl₁], h₁⟩, ?_⟩, ⟨l, by simp, rfl⟩, ?_⟩
      · rintro _ ⟨l', hl', rfl⟩
        rcases List.mem_append.1 hl' with hl' | hl'
        · exact hleast ⟨l', hl', rfl⟩
        · rw [List.mem_singleton.1 hl', ← h₁]; exact h₁l
      · rintro _ ⟨l', hl', rfl⟩
        rcases List.mem_append.1 hl' with hl' | hl'
        · exact hle l' hl' l (by simp)
        · rw [List.mem_singleton.1 hl']

/-- **The request times of a combined state** are the smallest and the largest
    timestamp exactly if both states have requests: the time 0 of a state
    without requests is taken for the minimum. -/
theorem combined_times_iff {sha256 : List Byte → Digest} {p q : StateParams}
    {A B : List ValidLookup} {dryrunA dryrunB : Option ValidDryRun}
    {s₀ t₀ s t s' t' : HonasState} {dryrun dryrun' : Option DryRunCounters}
    (hs₀ : honasStateCreate p = some (.ok s₀)) (ht₀ : honasStateCreate q = some (.ok t₀))
    (hs : registerAll sha256 s₀ (dryrunA.map ValidDryRun.counters) A = some (s, dryrun))
    (ht : registerAll sha256 t₀ (dryrunB.map ValidDryRun.counters) B = some (t, dryrun'))
    (hc : honasStateAggregateCombine s t = some (true, s', t'))
    (hne : A ++ B ≠ []) (hpos : ∀ l ∈ A ++ B, 0 < l.timestamp.toNat)
    (hA : A.Pairwise fun l l' => l.timestamp.toNat ≤ l'.timestamp.toNat)
    (hB : B.Pairwise fun l l' => l.timestamp.toNat ≤ l'.timestamp.toNat) :
    (IsLeast {t | ∃ l ∈ A ++ B, l.timestamp.toNat = t} (s'.header .firstRequest) ∧
      IsGreatest {t | ∃ l ∈ A ++ B, l.timestamp.toNat = t} (s'.header .lastRequest)) ↔
    A ≠ [] ∧ B ≠ [] := by
  have hrep := combined_represents hs₀ ht₀ hs ht hc
  obtain ⟨hf, hl, -⟩ := hrep.header_times
  rw [hf, hl, Tally.combine, Tally.ofLookups_times, Tally.ofLookups_times]
  have hunion : {t | ∃ l ∈ A ++ B, l.timestamp.toNat = t} =
      {t | ∃ l ∈ A, l.timestamp.toNat = t} ∪ {t | ∃ l ∈ B, l.timestamp.toNat = t} := by
    ext t
    simp [or_and_right, exists_or]
  constructor
  · rintro ⟨⟨⟨l, hlm, hmin⟩, -⟩, -⟩
    have hl0 := hpos l hlm
    constructor
    · rintro rfl
      dsimp only [List.foldl_nil] at hmin
      omega
    · rintro rfl
      dsimp only [List.foldl_nil] at hmin
      omega
  · rintro ⟨hA0, hB0⟩
    obtain ⟨hla, hga⟩ := foldl_nextTimes hA0 hA fun l hl => hpos l (by simp [hl])
    obtain ⟨hlb, hgb⟩ := foldl_nextTimes hB0 hB fun l hl => hpos l (by simp [hl])
    rw [hunion]
    exact ⟨hla.union hlb, hga.union hgb⟩

/-- Two states for the small parameters, and their combination. -/
theorem exists_smallCombined (A B : List ValidLookup) : ∃ s₀ s t s' t' dryrun dryrun',
    honasStateCreate smallParams = some (.ok s₀) ∧
    registerAll (fun _ => zeroDigest) s₀ ((none : Option ValidDryRun).map ValidDryRun.counters) A =
      some (s, dryrun) ∧
    registerAll (fun _ => zeroDigest) s₀ ((none : Option ValidDryRun).map ValidDryRun.counters) B =
      some (t, dryrun') ∧
    honasStateAggregateCombine s t = some (true, s', t') := by
  obtain ⟨s₀, s, dryrun, hs₀, hs, hrs, hos⟩ :=
    exists_registered smallParams_ok (fun _ => zeroDigest) A none
  obtain ⟨t₀, t, dryrun', ht₀, ht, hrt, hot⟩ :=
    exists_registered smallParams_ok (fun _ => zeroDigest) B none
  rw [hs₀, Option.some_inj, Except.ok.injEq] at ht₀
  subst ht₀
  obtain ⟨s', t', hc, -⟩ := combine_represents (.refl _) hrs hos hrt hot
  exact ⟨s₀, s, t, s', t', dryrun, dryrun', hs₀, hs, ht, hc⟩

theorem combined_times_small : ∃ s₀ s s' t' dryrun,
    honasStateCreate smallParams = some (.ok s₀) ∧
    registerAll (fun _ => zeroDigest) s₀ none [smallLookup 1] = some (s, dryrun) ∧
    honasStateAggregateCombine s s = some (true, s', t') ∧
    IsLeast {t | ∃ l ∈ [smallLookup 1] ++ [smallLookup 1], l.timestamp.toNat = t}
      (s'.header .firstRequest) := by
  obtain ⟨s₀, s, t, s', t', dryrun, dryrun', hs₀, hs, ht, hc⟩ :=
    exists_smallCombined [smallLookup 1] [smallLookup 1]
  have heq : s = t := by
    rw [hs, Option.some_inj, Prod.mk.injEq] at ht
    exact ht.1
  subst heq
  refine ⟨s₀, s, s', t', dryrun, hs₀, hs, hc, ((combined_times_iff hs₀ hs₀ hs ht hc (by simp) ?_
    (by simp) (by simp)).2 ⟨by simp, by simp⟩).1⟩
  intro l hl
  rw [show l = smallLookup 1 by simpa using hl]
  decide

/-- The first request of a combination with a state without requests is 0. -/
theorem combined_times_wrong : ∃ s₀ t s' t' dryrun,
    honasStateCreate smallParams = some (.ok s₀) ∧
    registerAll (fun _ => zeroDigest) s₀ none [smallLookup 5] = some (t, dryrun) ∧
    honasStateAggregateCombine s₀ t = some (true, s', t') ∧ s'.header .firstRequest = 0 ∧
    ¬ IsLeast {t | ∃ l ∈ [] ++ [smallLookup 5], l.timestamp.toNat = t} (s'.header .firstRequest) := by
  obtain ⟨s₀, s, t, s', t', dryrun, dryrun', hs₀, hs, ht, hc⟩ :=
    exists_smallCombined [] [smallLookup 5]
  have hrep := combined_represents hs₀ hs₀ hs ht hc
  have hs' : s₀ = s := by
    rw [registerAll, List.foldlM_nil] at hs
    exact congrArg Prod.fst (Option.some_inj.1 hs)
  subst hs'
  have h0 : s'.header .firstRequest = 0 := by
    rw [hrep.header_times.1, Tally.combine, Tally.ofLookups_times, Tally.ofLookups_times]
    exact Nat.zero_min _
  refine ⟨s₀, t, s', t', dryrun', hs₀, ht, hc, h0, ?_⟩
  rintro ⟨⟨l, hl, h⟩, -⟩
  rw [h0, show l = smallLookup 5 by simpa using hl] at h
  exact absurd h (by decide)

end Honas

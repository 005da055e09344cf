/-
  What a message leaves in the state.

  A message with a relevant question is registered: a request of its client at some time,
  and the strings that are stored for the name (`registrationOf`).  A state that keeps a
  tally keeps, after the message, the tally with the registration (`KeepsTally.decode`), and
  the counters of the instrumentation grow by what the message alone determines
  (`messageCounts`).
-/
import Honas.GatherCount

namespace Honas

open Bits MaxSketch

/-! ## Registrations -/

/-- A lookup, by its effect: the time and the client of the request, and the strings
    that are stored. -/
structure Registration where
  timestamp : BitVec 64
  hash : BitVec 64
  names : List StoredName
  names_ne_nil : names ≠ []

namespace Registration

/-- The strings of a registration, as events without a request. -/
def nameEvents (sha256 : List Byte → Digest) (p : StateParams) (r : Registration) : List Event :=
  r.names.map fun stored => ⟨none, p.filtersOf r.hash, sha256 stored.name⟩

/-- The tally after a registration. -/
def addTo (sha256 : List Byte → Digest) (p : StateParams) (a : Tally) (r : Registration) : Tally :=
  ((a.request r.timestamp).count .client r.hash).run p (r.nameEvents sha256 p)

/-- The entries of a registration in a counter. -/
def entries (sha256 : List Byte → Digest) (r : Registration) : Counter → List (ℕ × ℕ)
  | .client => [hllEntry r.hash]
  | .hostName => r.names.map fun stored => hllEntry (sha256 stored.name).word

end Registration

/-- The tally of several registrations. -/
def Tally.ofRegistrations (sha256 : List Byte → Digest) (p : StateParams)
    (rs : List Registration) : Tally :=
  rs.foldl (Registration.addTo sha256 p) .empty

section

variable {sha256 : List Byte → Digest} {p : StateParams} {a : Tally}

theorem Registration.mem_addTo_filters {r : Registration} {f b : ℕ} :
    (f, b) ∈ (r.addTo sha256 p a).filters ↔ (f, b) ∈ a.filters ∨
      f ∈ p.filtersOf r.hash ∧ ∃ stored ∈ r.names, b ∈ p.offsets f (sha256 stored.name) := by
  rw [addTo, Tally.run_filters]
  refine or_congr Iff.rfl ?_
  constructor
  · rintro ⟨e, he, hf, hb⟩
    obtain ⟨event, hevent, rfl⟩ := List.mem_map.1 he
    obtain ⟨stored, hs, rfl⟩ := List.mem_map.1 hevent
    exact ⟨hf, stored, hs, hb⟩
  · rintro ⟨hf, stored, hs, hb⟩
    exact ⟨_, List.mem_map_of_mem (List.mem_map_of_mem hs), hf, hb⟩

theorem Registration.addTo_regs (r : Registration) (c : Counter) :
    (r.addTo sha256 p a).regs c = addAll (a.regs c) (r.entries sha256 c) := by
  rw [addTo, Tally.run_regs, nameEvents, List.flatMap_map]
  cases c with
  | client =>
    have hnone : (r.names.flatMap fun stored =>
        (⟨none, p.filtersOf r.hash, sha256 stored.name⟩ : Event).entries .client) = [] :=
      List.flatMap_eq_nil_iff.2 fun _ _ => rfl
    rw [hnone]
    rfl
  | hostName =>
    rw [entries, List.map_eq_flatMap]
    rfl

theorem Registration.nameEvents_request (r : Registration) :
    (r.nameEvents sha256 p).filterMap Event.request = [] := by
  rw [nameEvents, List.filterMap_map, List.filterMap_eq_nil_iff]
  exact fun _ _ => rfl

theorem Registration.addTo_requests (r : Registration) :
    (r.addTo sha256 p a).requests = a.requests + 1 := by
  rw [addTo, Tally.run_requests, nameEvents_request]
  rfl

theorem Registration.addTo_times (r : Registration) :
    (r.addTo sha256 p a).times = nextTimes a.times r.timestamp.toNat := by
  rw [addTo, Tally.run_times, nameEvents_request]
  rfl

namespace Tally

theorem ofRegistrations_append (rs : List Registration) (r : Registration) :
    ofRegistrations sha256 p (rs ++ [r]) = r.addTo sha256 p (ofRegistrations sha256 p rs) :=
  List.foldl_concat ..

/-- **The bits that registrations set.** -/
theorem mem_ofRegistrations_filters {rs : List Registration} {f b : ℕ} :
    (f, b) ∈ (ofRegistrations sha256 p rs).filters ↔ ∃ r ∈ rs, f ∈ p.filtersOf r.hash ∧
      ∃ stored ∈ r.names, b ∈ p.offsets f (sha256 stored.name) := by
  induction rs using List.reverseRecOn with
  | nil =>
    refine iff_of_false (fun h => h.elim) ?_
    rintro ⟨r, hr, -⟩
    exact absurd hr List.not_mem_nil
  | append_singleton rs r ih =>
    rw [ofRegistrations_append, Registration.mem_addTo_filters, ih]
    simp only [List.mem_append, List.mem_singleton, or_and_right, exists_or, exists_eq_left]

theorem ofRegistrations_regs (rs : List Registration) (c : Counter) :
    (ofRegistrations sha256 p rs).regs c = ofList (rs.flatMap fun r => r.entries sha256 c) := by
  induction rs using List.reverseRecOn with
  | nil => rfl
  | append_singleton rs r ih =>
    rw [ofRegistrations_append, Registration.addTo_regs, ih, List.flatMap_append, ofList, ofList,
      addAll_append, List.flatMap_singleton]

theorem ofRegistrations_requests (rs : List Registration) :
    (ofRegistrations sha256 p rs).requests = rs.length := by
  induction rs using List.reverseRecOn with
  | nil => rfl
  | append_singleton rs r ih =>
    rw [ofRegistrations_append, Registration.addTo_requests, ih, List.length_append,
      List.length_singleton]

theorem ofRegistrations_times (rs : List Registration) : (ofRegistrations sha256 p rs).times =
    rs.foldl (fun times r => nextTimes times r.timestamp.toNat) (0, 0) := by
  induction rs using List.reverseRecOn with
  | nil => rfl
  | append_singleton rs r ih =>
    rw [ofRegistrations_append, Registration.addTo_times, ih, List.foldl_concat]

variable (sha256 p) in
/-- **The order of the registrations, and their times, do not matter** for the filters, the
    counters and the number of requests. -/
theorem ofRegistrations_perm {rs rs' : List Registration}
    (h : (rs.map fun r => (r.hash, r.names)).Perm (rs'.map fun r => (r.hash, r.names))) :
    (ofRegistrations sha256 p rs).filters = (ofRegistrations sha256 p rs').filters ∧
    (ofRegistrations sha256 p rs).regs = (ofRegistrations sha256 p rs').regs ∧
    (ofRegistrations sha256 p rs).requests = (ofRegistrations sha256 p rs').requests := by
  -- each registration of one list has one of the other with its client and strings
  have hmem : ∀ {rs rs' : List Registration},
      (rs.map fun r => (r.hash, r.names)).Perm (rs'.map fun r => (r.hash, r.names)) →
      ∀ r ∈ rs, ∃ r' ∈ rs', r'.hash = r.hash ∧ r'.names = r.names := by
    intro rs rs' h r hr
    obtain ⟨r', hr', heq⟩ := List.mem_map.1 (h.subset (List.mem_map_of_mem hr))
    exact ⟨r', hr', Prod.mk.inj heq⟩
  refine ⟨Set.ext fun ⟨f, b⟩ => ?_, ?_, ?_⟩
  · rw [mem_ofRegistrations_filters, mem_ofRegistrations_filters]
    constructor
    · rintro ⟨r, hr, hf, hb⟩
      obtain ⟨r', hr', hhash, hnames⟩ := hmem h r hr
      exact ⟨r', hr', hhash ▸ hf, hnames ▸ hb⟩
    · rintro ⟨r, hr, hf, hb⟩
      obtain ⟨r', hr', hhash, hnames⟩ := hmem h.symm r hr
      exact ⟨r', hr', hhash ▸ hf, hnames ▸ hb⟩
  · funext c
    rw [ofRegistrations_regs, ofRegistrations_regs]
    have hentries : ∀ {r r' : Registration}, r'.hash = r.hash → r'.names = r.names →
        r'.entries sha256 c = r.entries sha256 c := by
      intro r r' hhash hnames
      unfold Registration.entries
      rw [hhash, hnames]
    refine ofList_congr fun e => ?_
    rw [List.mem_flatMap, List.mem_flatMap]
    constructor
    · rintro ⟨r, hr, he⟩
      obtain ⟨r', hr', hhash, hnames⟩ := hmem h r hr
      exact ⟨r', hr', by rwa [hentries hhash hnames]⟩
    · rintro ⟨r, hr, he⟩
      obtain ⟨r', hr', hhash, hnames⟩ := hmem h.symm r hr
      exact ⟨r', hr', by rwa [hentries hhash hnames]⟩
  · rw [ofRegistrations_requests, ofRegistrations_requests]
    simpa only [List.length_map] using h.length_eq

end Tally

end

/-! ## The call -/

/-- A relation between tallies and states: a new state keeps nothing, and what a lookup does
    to the state is done to the tally. -/
structure TallyRelation where
  Keeps : StateParams → Tally → HonasState → Prop
  active : ∀ {p a s}, Keeps p a s → Active p s
  created : ∀ {p s}, Represents p .empty s → Owned p s → Keeps p .empty s
  request : ∀ {p a s}, Keeps p a s → ∀ t, Keeps p (a.request t) (s.countRequest t)
  count : ∀ {p a s}, p.Ok → Keeps p a s → ∀ c hash,
    ∃ s', s.addCount c hash = some s' ∧ Keeps p (a.count c hash) s'
  store : ∀ {p a s}, p.Ok → Keeps p a s → ∀ {filters : List ℕ}, (∀ f ∈ filters, f < p.n) → ∀ d,
    ∃ s', filters.foldlM (HonasState.setInFilter p.hashes d.1) s = some s' ∧
      Keeps p (a.store p filters d) s'

/-- The state represents the tally, with its counters on the heap. -/
def onHeap : TallyRelation where
  Keeps p a s := Represents p a s ∧ Owned p s
  active h := (Active.of_owned h.1 h.2).1
  created h ho := ⟨h, ho⟩
  request h t := h.1.request h.2 t
  count _ h c hash := h.1.count h.2 c hash
  store hok h _ hf d := h.1.store hok h.2 hf d

/-- Any state that has been created or loaded, whatever it keeps. -/
def anyState : TallyRelation where
  Keeps p _ s := Active p s
  active h := h
  created h ho := (Active.of_owned h ho).1
  request h t := (h.countRequest t).1
  count hok h c hash := by
    obtain ⟨s', hs, h', -⟩ := h.addCount hok.toFits c hash
    exact ⟨s', hs, h'⟩
  store hok h _ hf d := by
    obtain ⟨s', hs, h', -⟩ := h.setInFilters hok hf d
    exact ⟨s', hs, h'⟩

namespace TallyRelation

variable (sha256 : List Byte → Digest) (R : TallyRelation) {p : StateParams} {a : Tally}
  {s : HonasState}

/-- A string that is stored. -/
theorem name (hok : p.Ok) (h : R.Keeps p a s) {filters : List ℕ} (hf : ∀ f ∈ filters, f < p.n)
    (d : Digest) :
    ∃ s', s.runEvent p.hashes ⟨none, filters, d⟩ = some s' ∧
      R.Keeps p (a.step p ⟨none, filters, d⟩) s' := by
  obtain ⟨s₁, he₁, h₁⟩ := R.count hok h .hostName d.word
  obtain ⟨s₂, he₂, h₂⟩ := R.store hok h₁ hf d
  refine ⟨s₂, ?_, h₂⟩
  rw [HonasState.runEvent, HonasState.startEvent]
  simp only [Option.bind_eq_bind, Option.bind_some, he₁, he₂]

/-- **A call adds its registration** to the tally of the state. -/
theorem lookup (hok : p.Ok) (h : R.Keeps p a s) {l : Lookup}
    {r : Registration} (ht : l.timestamp = r.timestamp) (hc : clientHash l.client = some r.hash)
    (hn : hostNameStrings l.hostName l.entity l.qtype = some r.names) (dryrun : Option ValidDryRun) :
    ∃ s', ∃ dryrun' : Option ValidDryRun,
      honasStateRegisterHostNameLookup sha256 s l (dryrun.map ValidDryRun.counters) =
        some (s', dryrun'.map ValidDryRun.counters) ∧ R.Keeps p (r.addTo sha256 p a) s' := by
  obtain ⟨nr, hnr, hnr0, hcomb, hsubset⟩ := hok.filtersOf_spec r.hash
  -- the request, and the client
  obtain ⟨s₁, he₁, h₁⟩ := R.count hok (R.request h r.timestamp) .client r.hash
  -- the strings
  obtain ⟨s₂, he₂, h₂⟩ : ∃ s₂, (r.nameEvents sha256 p).foldlM (HonasState.runEvent p.hashes) s₁ =
      some s₂ ∧ R.Keeps p (r.addTo sha256 p a) s₂ := by
    refine Run.exists_run_of_forall (R := fun es s =>
      R.Keeps p (((a.request r.timestamp).count .client r.hash).run p es) s)
      (C := fun e => ∃ d, e = ⟨none, p.filtersOf r.hash, d⟩) (h := []) ?_ h₁ ?_
    · rintro es s _ hkeeps ⟨d, rfl⟩
      rw [Tally.run_append]
      exact R.name hok hkeeps hsubset.lt d
    · intro e he
      obtain ⟨stored, -, rfl⟩ := List.mem_map.1 he
      exact ⟨_, rfl⟩
  obtain ⟨dryrun₂, hd₂⟩ := storeNames_of_events r.names dryrun he₂
  have hcall : honasStateRegisterHostNameLookup sha256 s l (dryrun.map ValidDryRun.counters) =
      some (s₂, if l.qtype ≠ ldnsRrTypePtr then
        (dryrun₂.map ValidDryRun.counters).map DryRunCounters.total
      else dryrun₂.map ValidDryRun.counters) := by
    have hs₁ := (R.active h₁).toShaped
    have hnr' : s₁.nrFiltersPerUserCombinations = nr :=
      Option.some_inj.1 (hs₁.combinations.symm.trans hnr)
    rw [honasStateRegisterHostNameLookup, ht]
    simp only [hc, Option.bind_eq_bind, Option.bind_some, he₁, hs₁.config .numberOfFilters rfl,
      hs₁.config .numberOfHashes rfl, hs₁.config .numberOfFiltersPerUser rfl, StateParams.config, hn,
      hnr', if_neg hnr0, hcomb, hd₂]
  rw [hcall]
  by_cases hq : l.qtype ≠ ldnsRrTypePtr
  · refine ⟨s₂, dryrun₂.map fun d => ⟨d.counters.total, d.hourly, d.daily⟩, ?_, h₂⟩
    rw [if_pos hq, Option.map_map, Option.map_map]
    rfl
  · exact ⟨s₂, dryrun₂, by rw [if_neg hq], h₂⟩

end TallyRelation

/-! ## Messages -/

/-- The subnets that are looked up, if any are. -/
def Capture.subnets (ctx : Capture) : Option SubnetActivity :=
  if ctx.aggregateSubnets then some ctx.subnetMetadata else none

/-- The entity under which a client is stored; `none` if the search does not end. -/
def entityOf (subnets : Option SubnetActivity) (client : InAddr46) : Option EntityName :=
  match subnets with
  | some subnets => (subnetActivityMatchPrefix client subnets).map fun found =>
      found.getD unknownEntity
  | none => some unknownEntity

/-- The registration of a message, if it has a relevant question. -/
def registrationOf (ldnsWire2pkt : List Byte → Option (List LdnsRr))
    (subnets : Option SubnetActivity) (now : BitVec 64) (m : DnstapMessage) :
    Option Registration := do
  let (qname, qtype) ← relevantQuestion ldnsWire2pkt m
  let hash ← clientHash (queryClient m.queryAddress)
  let entity ← entityOf subnets (queryClient m.queryAddress)
  let names ← (hostNameStrings qname.bytes (some entity.bytes) qtype).attach
  some ⟨now, hash, names.1, hostNameStrings_ne_nil names.2⟩

/-- The state keeps a tally, and the dry-run counters are well formed. -/
structure KeepsTally (R : TallyRelation) (p : StateParams) (a : Tally) (ctx : Capture) : Prop where
  keeps : R.Keeps p a ctx.currentActiveState
  dryRun : ∃ dryrun : Option ValidDryRun, ctx.dryRun = dryrun.map ValidDryRun.counters

theorem KeepsTally.serving {R : TallyRelation} {p : StateParams} {a : Tally} {ctx : Capture}
    (h : KeepsTally R p a ctx) : Serving p ctx :=
  ⟨R.active h.keeps, h.dryRun⟩

section

variable {ldnsWire2pkt : List Byte → Option (List LdnsRr)} {ctx : Capture}

theorem matchSubnet_entity {client : InAddr46} {entity : Option EntityName} {ctx' : Capture}
    (h : matchSubnet ctx client = some (entity, ctx')) :
    entityOf ctx.subnets client = some (entity.getD unknownEntity) := by
  rw [matchSubnet] at h
  rw [Capture.subnets]
  split_ifs at h ⊢ with hagg
  · obtain ⟨found, hf, h⟩ := Option.bind_eq_some_iff.1 h
    obtain ⟨rfl, -⟩ := Prod.mk.inj (Option.some.inj h)
    rw [entityOf, hf, Option.map_some]
  · obtain ⟨rfl, -⟩ := Prod.mk.inj (Option.some.inj h)
    rfl

theorem registrationOf_none {subnets : Option SubnetActivity} {now : BitVec 64} {m : DnstapMessage}
    (h : relevantQuestion ldnsWire2pkt m = none) :
    registrationOf ldnsWire2pkt subnets now m = none := by
  rw [registrationOf, h]
  rfl

theorem registrationOf_some {subnets : Option SubnetActivity} {now : BitVec 64} {m : DnstapMessage}
    {qname : NameString} {qtype : ℕ} (hq : relevantQuestion ldnsWire2pkt m = some (qname, qtype))
    {hash : BitVec 64} (hc : clientHash (queryClient m.queryAddress) = some hash)
    {entity : EntityName} (he : entityOf subnets (queryClient m.queryAddress) = some entity)
    {names : List StoredName}
    (hn : hostNameStrings qname.bytes (some entity.bytes) qtype = some names) :
    registrationOf ldnsWire2pkt subnets now m =
      some ⟨now, hash, names, hostNameStrings_ne_nil hn⟩ := by
  rw [registrationOf, hq]
  simp only [Option.bind_eq_bind, Option.bind_some, hc, he]
  rw [Option.bind_eq_some_iff]
  exact ⟨⟨names, hn⟩, by simp [Option.attach_eq_some_iff, hn], rfl⟩

end

/-! ## What a message counts -/

attribute [ext] Instrumentation

namespace Instrumentation

instance : Zero Instrumentation := ⟨⟨0, 0, 0, 0, 0, 0, 0, 0, 0, 0⟩⟩

instance : Add Instrumentation where
  add a b :=
    { nProcessedQueries := a.nProcessedQueries + b.nProcessedQueries
      nSkippedQueries := a.nSkippedQueries + b.nSkippedQueries
      nAcceptedQueries := a.nAcceptedQueries + b.nAcceptedQueries
      nAQueries := a.nAQueries + b.nAQueries
      nAaaaQueries := a.nAaaaQueries + b.nAaaaQueries
      nNsQueries := a.nNsQueries + b.nNsQueries
      nMxQueries := a.nMxQueries + b.nMxQueries
      nPtrQueries := a.nPtrQueries + b.nPtrQueries
      nQueriesInSubnet := a.nQueriesInSubnet + b.nQueriesInSubnet
      nQueriesNotInSubnet := a.nQueriesNotInSubnet + b.nQueriesNotInSubnet }

instance : AddCommMonoid Instrumentation where
  add_assoc a b c := by ext <;> exact Nat.add_assoc ..
  zero_add a := by ext <;> exact Nat.zero_add _
  add_zero a := rfl
  add_comm a b := by ext <;> exact Nat.add_comm ..
  nsmul := nsmulRec

variable (a b : Instrumentation)

theorem add_incrementProcessed : a + b.incrementProcessed = (a + b).incrementProcessed := rfl

theorem add_incrementAccepted : a + b.incrementAccepted = (a + b).incrementAccepted := rfl

theorem add_updateSubnetActivity (isIn notIn : ℕ) :
    a + b.updateSubnetActivity isIn notIn = (a + b).updateSubnetActivity isIn notIn := by
  ext <;> first | rfl | exact (Nat.add_assoc ..).symm

theorem add_incrementType (qtype : ℕ) :
    a + b.incrementType qtype = (a + b).incrementType qtype := by
  unfold incrementType
  split <;> rfl

end Instrumentation

/-- The counts of a lookup of the subnet. -/
def subnetCounts (subnets : Option SubnetActivity) (client : InAddr46) : ℕ × ℕ :=
  match subnets with
  | some subnets =>
    if ((subnetActivityMatchPrefix client subnets).getD none).isSome then (1, 0) else (0, 1)
  | none => (0, 0)

/-- What a message adds to the counters of the instrumentation. -/
def messageCounts (ldnsWire2pkt : List Byte → Option (List LdnsRr))
    (subnets : Option SubnetActivity) (m : DnstapMessage) : Instrumentation :=
  match relevantQuestion ldnsWire2pkt m with
  | some (_, qtype) =>
    let (isIn, notIn) := subnetCounts subnets (queryClient m.queryAddress)
    ((Instrumentation.updateSubnetActivity 0 isIn notIn).incrementAccepted.incrementType
      qtype).incrementProcessed
  | none =>
    if (m.clientPacket.bind ldnsWire2pkt).isSome then Instrumentation.incrementProcessed 0
    else (Instrumentation.incrementSkipped 0).incrementProcessed

section

variable {sha256 : List Byte → Digest} {ldnsWire2pkt : List Byte → Option (List LdnsRr)}
  {fprExceeds : ℕ → ℕ → ℕ → Bool} {R : TallyRelation} {p : StateParams} {a : Tally}
  {ctx ctx' : Capture}

theorem matchSubnet_subnetCounts {client : InAddr46} {entity : Option EntityName}
    (h : matchSubnet ctx client = some (entity, ctx')) :
    ctx'.instData = ctx.instData.updateSubnetActivity (subnetCounts ctx.subnets client).1
      (subnetCounts ctx.subnets client).2 := by
  rw [matchSubnet] at h
  rw [Capture.subnets]
  split_ifs at h ⊢ with hagg
  · obtain ⟨found, hf, h⟩ := Option.bind_eq_some_iff.1 h
    obtain ⟨rfl, rfl⟩ := Prod.mk.inj (Option.some.inj h)
    rw [subnetCounts, hf]
    cases found <;> rfl
  · obtain ⟨-, rfl⟩ := Prod.mk.inj (Option.some.inj h)
    rfl

/-- **Registering a question** adds its registration to the tally. -/
theorem KeepsTally.registerQuestion (hok : p.Ok) {now : BitVec 64} (h : KeepsTally R p a ctx)
    {address : Option (List Byte)} {qname : NameString} {qtype : ℕ}
    (hreg : registerQuestion sha256 fprExceeds now ctx (queryClient address) qname qtype =
      some ctx') :
    ∃ hash entity names, ∃ hn : hostNameStrings qname.bytes (some entity.bytes) qtype = some names,
      clientHash (queryClient address) = some hash ∧
      entityOf ctx.subnets (queryClient address) = some entity ∧
      KeepsTally R p (Registration.addTo sha256 p a ⟨now, hash, names, hostNameStrings_ne_nil hn⟩) ctx' ∧
      ctx'.subnets = ctx.subnets ∧
      ctx'.instData = ((ctx.instData.updateSubnetActivity
        (subnetCounts ctx.subnets (queryClient address)).1
        (subnetCounts ctx.subnets (queryClient address)).2).incrementAccepted.incrementType
          qtype) := by
  obtain ⟨dryrun, hdry⟩ := h.dryRun
  rw [Honas.registerQuestion] at hreg
  obtain ⟨⟨found, ctx₁⟩, hmatch, hreg⟩ := Option.bind_eq_some_iff.1 hreg
  obtain ⟨⟨s', dryrun'⟩, hcall, hreg⟩ := Option.bind_eq_some_iff.1 hreg
  obtain rfl := Option.some.inj hreg
  obtain ⟨hsetup, hstate, hdry₁, -, -⟩ := (matchSubnet_spec ctx (queryClient address)).1 _ _ hmatch
  obtain ⟨⟨hash, hc⟩, names, hn⟩ := register_some hcall
  obtain ⟨s₂, dryrun₂, hcall₂, hkeeps⟩ := R.lookup sha256 hok h.keeps
    (l := ⟨now, queryClient address, qname.bytes, some (found.getD unknownEntity).bytes, qtype⟩)
    (r := ⟨now, hash, names, hostNameStrings_ne_nil hn⟩) rfl hc hn dryrun
  rw [hstate, hdry₁, hdry, hcall₂] at hcall
  obtain ⟨rfl, rfl⟩ := Prod.mk.inj (Option.some.inj hcall)
  refine ⟨hash, found.getD unknownEntity, names, hn, hc, matchSubnet_entity hmatch,
    ⟨hkeeps, dryrun₂, rfl⟩, ?_, ?_⟩
  · unfold Capture.subnets
    rw [hsetup.aggregate, hsetup.metadata]
  · dsimp only
    rw [matchSubnet_subnetCounts hmatch]

/-- **One message** adds its registration to the tally, and its counts to the
    instrumentation. -/
theorem KeepsTally.decode (hok : p.Ok) {now : BitVec 64} (h : KeepsTally R p a ctx) {m : DnstapMessage}
    (hm : (decodeDnstapMessage sha256 ldnsWire2pkt fprExceeds now ctx m).map Prod.snd = some ctx') :
    KeepsTally R p ((registrationOf ldnsWire2pkt ctx.subnets now m).toList.foldl
        (Registration.addTo sha256 p) a) ctx' ∧
      ctx'.subnets = ctx.subnets ∧
      ctx'.instData = ctx.instData + messageCounts ldnsWire2pkt ctx.subnets m := by
  rw [decodeDnstapMessage_eq] at hm
  obtain ⟨ctx₁, hctx₁, rfl⟩ := Option.map_eq_some_iff.1 hm
  rw [messageCounts]
  rcases hq : relevantQuestion ldnsWire2pkt m with _ | ⟨qname, qtype⟩
  · rw [hq] at hctx₁
    obtain rfl := Option.some.inj hctx₁
    rw [registrationOf_none hq]
    split_ifs
    · exact ⟨⟨h.keeps, h.dryRun⟩, rfl, rfl⟩
    · exact ⟨⟨h.keeps, h.dryRun⟩, rfl, rfl⟩
  · rw [hq] at hctx₁
    obtain ⟨hash, entity, names, hn, hc, he, hkeeps, hsubnets, hinst⟩ :=
      h.registerQuestion hok hctx₁
    rw [registrationOf_some hq hc he hn]
    refine ⟨⟨hkeeps.keeps, hkeeps.dryRun⟩, hsubnets, ?_⟩
    dsimp only
    rw [Instrumentation.add_incrementProcessed, Instrumentation.add_incrementType,
      Instrumentation.add_incrementAccepted, Instrumentation.add_updateSubnetActivity, add_zero,
      ← hinst]
    rfl

end

end Honas

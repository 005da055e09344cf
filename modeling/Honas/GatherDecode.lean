/-
  Decoding messages (`decode_dnstap_message` in `src/bin/honas_gather.c`).

  Queries of clients are registered in the active state, under the name of the
  client's subnet or under `UNKNOWN`.  protobuf and ldns are parameters: a
  message is what protobuf unpacks, and ldns gives the questions of a packet.

  Messages are processed to the end unless the registered ones lack a usable
  address or have a name that does not fit (`decodeAll_iff`).
-/
import Honas.StateActive
import Honas.SubnetActivity

namespace Honas

open Bits CString

/-- `Dnstap__Message__Type`. -/
inductive DnstapMessageType where
  | authQuery
  | authResponse
  | resolverQuery
  | resolverResponse
  | clientQuery
  | clientResponse
  | forwarderQuery
  | forwarderResponse
  | stubQuery
  | stubResponse
  | toolQuery
  | toolResponse
  | other (n : ℤ)
deriving DecidableEq

/-- `Dnstap__Message`, as far as it is used. -/
structure DnstapMessage where
  type : DnstapMessageType
  queryAddress : Option (List Byte)
  queryMessage : Option (List Byte)

/-- What `ldns_rdf2str` gives for a name: a C string that is not empty. -/
structure NameString where
  bytes : List Byte
  ne_nil : bytes ≠ []
  not_mem : 0 ∉ bytes

/-- A question: `ldns_rr`, with its owner as a string. -/
structure LdnsRr where
  owner : Option NameString
  rrClass : ℕ
  rrType : ℕ

/-- `LDNS_RR_CLASS_IN`. -/
def ldnsRrClassIn : ℕ := 1

/-- `relevant_dns_types`: A, NS, MX, AAAA and PTR. -/
def relevantDnsTypes : List ℕ := [1, 2, 15, 28, ldnsRrTypePtr]

/-- `query_is_valid_dns_type`. -/
def queryIsValidDnsType (qtype : ℕ) : Bool := qtype ∈ relevantDnsTypes

/-! ## Instrumentation -/

/-- `struct instrumentation`, without what is only computed when it is dumped. -/
structure Instrumentation where
  nProcessedQueries : ℕ
  nSkippedQueries : ℕ
  nAcceptedQueries : ℕ
  nAQueries : ℕ
  nAaaaQueries : ℕ
  nNsQueries : ℕ
  nMxQueries : ℕ
  nPtrQueries : ℕ
  nQueriesInSubnet : ℕ
  nQueriesNotInSubnet : ℕ

namespace Instrumentation

/-- `instrumentation_increment_processed`. -/
def incrementProcessed (inst : Instrumentation) : Instrumentation :=
  { inst with nProcessedQueries := inst.nProcessedQueries + 1 }

/-- `instrumentation_increment_accepted`. -/
def incrementAccepted (inst : Instrumentation) : Instrumentation :=
  { inst with nAcceptedQueries := inst.nAcceptedQueries + 1 }

/-- `instrumentation_increment_skipped`. -/
def incrementSkipped (inst : Instrumentation) : Instrumentation :=
  { inst with nSkippedQueries := inst.nSkippedQueries + 1 }

/-- `instrumentation_increment_type`. -/
def incrementType (inst : Instrumentation) (qtype : ℕ) : Instrumentation :=
  match qtype with
  | 1 => { inst with nAQueries := inst.nAQueries + 1 }
  | 28 => { inst with nAaaaQueries := inst.nAaaaQueries + 1 }
  | 2 => { inst with nNsQueries := inst.nNsQueries + 1 }
  | 15 => { inst with nMxQueries := inst.nMxQueries + 1 }
  | 12 => { inst with nPtrQueries := inst.nPtrQueries + 1 }
  | _ => inst

/-- `instrumentation_update_subnet_activity`. -/
def updateSubnetActivity (inst : Instrumentation) (isIn notIn : ℕ) : Instrumentation :=
  { inst with
    nQueriesInSubnet := inst.nQueriesInSubnet + isIn
    nQueriesNotInSubnet := inst.nQueriesNotInSubnet + notIn }

end Instrumentation

/-! ## Decoding -/

/-- `struct capture`, with the other globals that decoding uses; `dryRun` is `none`
    if no dry run was requested. -/
structure Capture where
  aggregateSubnets : Bool
  subnetMetadata : SubnetActivity
  dryRun : Option DryRunCounters
  fprWarningPassed : Bool
  currentActiveState : HonasState
  instData : Instrumentation

/-- Count a message as processed. -/
def Capture.processed (ctx : Capture) : Capture :=
  { ctx with instData := ctx.instData.incrementProcessed }

/-- Count a message as skipped. -/
def Capture.skipped (ctx : Capture) : Capture :=
  { ctx with instData := ctx.instData.incrementSkipped }

/-- The packet of a query of a client, if there is one. -/
def DnstapMessage.clientPacket (m : DnstapMessage) : Option (List Byte) :=
  if m.type = .clientQuery then m.queryMessage else none

/-- The source address of a query. -/
def queryClient : Option (List Byte) → InAddr46
  | some address =>
    if address.length = 4 then .inet (BitVec.ofNat 32 (ofLE address))
    else if address.length = 16 then .inet6 (BitVec.ofNat 128 (ofLE address))
    else .other 0
  | none => .other 0

/-- The entity of a client without a subnet: `UNKNOWN`. -/
def unknownEntity : EntityName where
  bytes := [0x55, 0x4e, 0x4b, 0x4e, 0x4f, 0x57, 0x4e]
  not_mem := by decide
  length_lt := by decide

/-- `filter_bits_set[i]`. -/
def HonasState.filterBitsSetAt (state : HonasState) (i : ℕ) : ℕ :=
  ofLE (slice state.mmap (state.filterBitsSet + 4 * i) 4)

section

variable (sha256 : List Byte → Digest) (ldnsWire2pkt : List Byte → Option (List LdnsRr))
  (fprExceeds : ℕ → ℕ → ℕ → Bool)

/-- The loop that checks the false positive rates: whether the warning has been
    given.  `fprExceeds` compares, in floating point, the rate for a number of
    bits set, of bits and of hashes with `FPR_THRESHOLD`. -/
def checkFalsePositiveRates (state : HonasState) (fprWarningPassed : Bool) : Bool :=
  (List.range (state.header .numberOfFilters)).foldl (fun passed i =>
    if fprExceeds (state.filterBitsSetAt i) (state.header .numberOfBitsPerFilter)
      (state.header .numberOfHashes) && !passed then true else passed) fprWarningPassed

/-- The subnet of a client is looked up and counted. -/
def matchSubnet (ctx : Capture) (client : InAddr46) : Option (Option EntityName × Capture) :=
  if ctx.aggregateSubnets then do
    let found ← subnetActivityMatchPrefix client ctx.subnetMetadata
    let isIn := if found.isSome then 1 else 0
    let notIn := if found.isSome then 0 else 1
    some (found, { ctx with instData := ctx.instData.updateSubnetActivity isIn notIn })
  else some (none, ctx)

/-- A relevant question is registered. -/
def registerQuestion (now : BitVec 64) (ctx : Capture) (client : InAddr46) (qname : NameString)
    (qtype : ℕ) : Option Capture := do
  let (entity, ctx) ← matchSubnet ctx client
  let (state, dryRun) ← honasStateRegisterHostNameLookup sha256 ctx.currentActiveState
    ⟨now, client, qname.bytes, some (entity.getD unknownEntity).bytes, qtype⟩ ctx.dryRun
  some { ctx with
    currentActiveState := state
    dryRun := dryRun
    fprWarningPassed := checkFalsePositiveRates fprExceeds state ctx.fprWarningPassed
    instData := ctx.instData.incrementAccepted.incrementType qtype }

/-- The first question of a packet, if there is one. -/
def processQuestion (now : BitVec 64) (ctx : Capture) (client : InAddr46)
    (question : List LdnsRr) : Option Capture :=
  match question with
  | [] => some ctx
  | rr :: _ =>
    match rr.owner with
    | none => some ctx
    | some qname =>
      if rr.rrClass = ldnsRrClassIn ∧ queryIsValidDnsType rr.rrType = true then
        registerQuestion sha256 fprExceeds now ctx client qname rr.rrType
      else some ctx

/-- `decode_dnstap_message`: what it returns, and the context; `none` when the
    program stops. -/
def decodeDnstapMessage (now : BitVec 64) (ctx : Capture) (m : DnstapMessage) :
    Option (Bool × Capture) :=
  match m.clientPacket with
  | some message =>
    match ldnsWire2pkt message with
    | some question => do
      let ctx ← processQuestion sha256 fprExceeds now ctx (queryClient m.queryAddress) question
      some (true, ctx.processed)
    | none => some (false, ctx.skipped.processed)
  | none => some (false, ctx.skipped.processed)

/-- Messages, each with the time at which it is decoded. -/
def decodeAll (ctx : Capture) (ms : List (BitVec 64 × DnstapMessage)) : Option Capture :=
  ms.foldlM (fun ctx m => (decodeDnstapMessage sha256 ldnsWire2pkt fprExceeds m.1 ctx m.2).map Prod.snd)
    ctx

/-! ## Which messages are registered -/

/-- The question that is registered, if the first one of a packet is relevant. -/
def relevantRr : List LdnsRr → Option (NameString × ℕ)
  | [] => none
  | rr :: _ =>
    if rr.rrClass = ldnsRrClassIn ∧ queryIsValidDnsType rr.rrType = true then
      rr.owner.map fun qname => (qname, rr.rrType)
    else none

/-- The question of a message that is registered. -/
def relevantQuestion (m : DnstapMessage) : Option (NameString × ℕ) :=
  (m.clientPacket.bind ldnsWire2pkt).bind relevantRr

end

/-! ## No message stops the collector -/

/-- The collector has a state open, and its dry-run counters are well formed. -/
structure Serving (p : StateParams) (ctx : Capture) : Prop where
  active : Active p ctx.currentActiveState
  dryRun : ∃ dryrun : Option ValidDryRun, ctx.dryRun = dryrun.map ValidDryRun.counters

/-- What registering a question needs: a client address of four or sixteen bytes,
    a name that fits in the buffers, and a lookup of the subnet that ends. -/
def Registrable (ctx : Capture) (address : Option (List Byte)) (qname : NameString) : Prop :=
  (∃ bytes, address = some bytes ∧ (bytes.length = 4 ∨ bytes.length = 16)) ∧
  (if qname.bytes.getLast qname.ne_nil = dot then qname.bytes.dropLast else qname.bytes).length ≤ 255 ∧
  (ctx.aggregateSubnets = true → ctx.subnetMetadata.Ends (queryClient address))

theorem clientHash_queryClient {address : Option (List Byte)} :
    (∃ hash, clientHash (queryClient address) = some hash) ↔
      ∃ bytes, address = some bytes ∧ (bytes.length = 4 ∨ bytes.length = 16) := by
  cases address with
  | none =>
    constructor
    · rintro ⟨hash, ⟨⟩⟩
    · rintro ⟨bytes, ⟨⟩, -⟩
  | some bytes =>
    rw [queryClient]
    by_cases h4 : bytes.length = 4
    · rw [if_pos h4]
      exact ⟨fun _ => ⟨bytes, rfl, .inl h4⟩, fun _ => ⟨_, rfl⟩⟩
    rw [if_neg h4]
    by_cases h16 : bytes.length = 16
    · rw [if_pos h16]
      exact ⟨fun _ => ⟨bytes, rfl, .inr h16⟩, fun _ => ⟨_, rfl⟩⟩
    rw [if_neg h16]
    constructor
    · rintro ⟨hash, ⟨⟩⟩
    · rintro ⟨bytes', h, h'⟩
      cases h
      exact (h'.elim h4 h16).elim

/-- What decoding leaves as it is. -/
structure SameSetup (ctx ctx' : Capture) : Prop where
  aggregate : ctx'.aggregateSubnets = ctx.aggregateSubnets
  metadata : ctx'.subnetMetadata = ctx.subnetMetadata

theorem matchSubnet_spec (ctx : Capture) (client : InAddr46) :
    (∀ entity ctx', matchSubnet ctx client = some (entity, ctx') → SameSetup ctx ctx' ∧
      ctx'.currentActiveState = ctx.currentActiveState ∧ ctx'.dryRun = ctx.dryRun ∧
      ctx'.fprWarningPassed = ctx.fprWarningPassed ∧
      ctx'.instData.nProcessedQueries = ctx.instData.nProcessedQueries) ∧
    ((∃ entity ctx', matchSubnet ctx client = some (entity, ctx')) ↔
      (ctx.aggregateSubnets = true → ctx.subnetMetadata.Ends client)) := by
  rw [matchSubnet]
  by_cases hagg : ctx.aggregateSubnets = true
  · rw [if_pos hagg]
    have hends := subnetActivityMatchPrefix_isSome client ctx.subnetMetadata
    cases hf : subnetActivityMatchPrefix client ctx.subnetMetadata with
    | none =>
      rw [hf] at hends
      refine ⟨fun entity ctx' h => (by cases h), ?_, fun h => ?_⟩
      · rintro ⟨entity, ctx', h⟩
        cases h
      · exact absurd (hends.2 (h hagg)) Bool.false_ne_true
    | some found =>
      rw [hf] at hends
      refine ⟨fun entity ctx' h => ?_, fun _ _ => hends.1 rfl, fun _ => ⟨_, _, rfl⟩⟩
      cases h
      exact ⟨⟨rfl, rfl⟩, rfl, rfl, rfl, rfl⟩
  · rw [if_neg hagg]
    refine ⟨fun entity ctx' h => ?_, fun _ h => absurd h hagg, fun _ => ⟨_, _, rfl⟩⟩
    cases h
    exact ⟨⟨rfl, rfl⟩, rfl, rfl, rfl, rfl⟩

section

variable {sha256 : List Byte → Digest} {ldnsWire2pkt : List Byte → Option (List LdnsRr)}
  {fprExceeds : ℕ → ℕ → ℕ → Bool} {p : StateParams}

theorem incrementType_processed (inst : Instrumentation) (qtype : ℕ) :
    (inst.incrementAccepted.incrementType qtype).nProcessedQueries = inst.nProcessedQueries := by
  unfold Instrumentation.incrementType
  split <;> rfl

/-- Two states are for one period. -/
structure SamePeriod (s s' : HonasState) : Prop where
  periodBegin : s'.header .periodBegin = s.header .periodBegin
  periodEnd : s'.header .periodEnd = s.header .periodEnd

variable (sha256) in
/-- The bits of some strings have been set in the filters of a client. -/
def StoredBits (p : StateParams) (s s' : HonasState) : Prop :=
  ∃ hash : BitVec 64, ∃ names : List StoredName, names ≠ [] ∧
    ∀ x, 8 * sizeofHeader ≤ x → (bitAt s'.mmap x = true ↔
      bitAt s.mmap x = true ∨
        ∃ stored ∈ names, x ∈ p.storedPos (p.filtersOf hash) (sha256 stored.name))

variable (sha256 fprExceeds) in
/-- **Registering a question** succeeds exactly if it is registrable. -/
theorem registerQuestion_isSome (hok : p.Ok) (now : BitVec 64) {ctx : Capture}
    (h : Serving p ctx) (address : Option (List Byte)) (qname : NameString) (qtype : ℕ) :
    (Registrable ctx address qname →
      ∃ ctx', registerQuestion sha256 fprExceeds now ctx (queryClient address) qname qtype =
        some ctx' ∧ Serving p ctx' ∧ SameSetup ctx ctx' ∧
        ctx'.instData.nProcessedQueries = ctx.instData.nProcessedQueries ∧
        ctx'.fprWarningPassed =
          checkFalsePositiveRates fprExceeds ctx'.currentActiveState ctx.fprWarningPassed ∧
        SamePeriod ctx.currentActiveState ctx'.currentActiveState ∧
        (OnHeap ctx.currentActiveState → OnHeap ctx'.currentActiveState ∧
          StoredBits sha256 p ctx.currentActiveState ctx'.currentActiveState)) ∧
    (∀ ctx', registerQuestion sha256 fprExceeds now ctx (queryClient address) qname qtype =
      some ctx' → Registrable ctx address qname) := by
  obtain ⟨hsame, hends⟩ := matchSubnet_spec ctx (queryClient address)
  constructor
  · rintro ⟨haddress, hfits, hend⟩
    obtain ⟨entity, ctx₁, hmatch⟩ := hends.2 hend
    obtain ⟨hsetup, hstate, hdry, hfpr, hproc⟩ := hsame entity ctx₁ hmatch
    obtain ⟨hash, hc⟩ := clientHash_queryClient.2 haddress
    obtain ⟨names, hn⟩ := (hostNameStrings_isSome_iff (entity.getD unknownEntity) qtype
      qname.ne_nil qname.not_mem).2 hfits
    obtain ⟨dryrun, hd⟩ := h.dryRun
    obtain ⟨s', dryrun', hreg, hact, hheader, hbits⟩ := h.active.register sha256 hok
      (show clientHash (⟨now, queryClient address, qname.bytes,
        some (entity.getD unknownEntity).bytes, qtype⟩ : Lookup).client = some hash from hc) hn dryrun
    refine ⟨{ ctx₁ with
      currentActiveState := s'
      dryRun := dryrun'.map ValidDryRun.counters
      fprWarningPassed := checkFalsePositiveRates fprExceeds s' ctx₁.fprWarningPassed
      instData := ctx₁.instData.incrementAccepted.incrementType qtype }, ?_, ⟨hact, dryrun', rfl⟩,
      ⟨hsetup.aggregate, hsetup.metadata⟩, (incrementType_processed _ _).trans hproc,
      congrArg (checkFalsePositiveRates fprExceeds s') hfpr,
      ⟨hheader .periodBegin rfl, hheader .periodEnd rfl⟩, fun ho =>
        ⟨(hbits ho).1, hash, names, hostNameStrings_ne_nil hn, (hbits ho).2⟩⟩
    rw [registerQuestion, hmatch]
    simp only [Option.bind_eq_bind, Option.bind_some, hstate, hdry, hd, hreg]
  · intro ctx' hreg
    rw [registerQuestion] at hreg
    obtain ⟨⟨entity, ctx₁⟩, hmatch, hreg⟩ := Option.bind_eq_some_iff.1 hreg
    obtain ⟨⟨s', dryrun'⟩, hcall, -⟩ := Option.bind_eq_some_iff.1 hreg
    obtain ⟨hclient, hnames⟩ := register_some hcall
    exact ⟨clientHash_queryClient.1 hclient, (hostNameStrings_isSome_iff _ qtype qname.ne_nil
      qname.not_mem).1 hnames, hends.1 ⟨entity, ctx₁, hmatch⟩⟩

end

section

variable {sha256 : List Byte → Digest} {ldnsWire2pkt : List Byte → Option (List LdnsRr)}
  {fprExceeds : ℕ → ℕ → ℕ → Bool} {p : StateParams}

/-- A question is registered if it is relevant. -/
theorem processQuestion_eq (now : BitVec 64) (ctx : Capture) (client : InAddr46)
    (question : List LdnsRr) :
    processQuestion sha256 fprExceeds now ctx client question =
      match relevantRr question with
      | some (qname, qtype) => registerQuestion sha256 fprExceeds now ctx client qname qtype
      | none => some ctx := by
  cases question with
  | nil => rfl
  | cons rr rest =>
    rw [processQuestion, relevantRr]
    by_cases hr : rr.rrClass = ldnsRrClassIn ∧ queryIsValidDnsType rr.rrType = true
    · rw [if_pos hr]
      cases rr.owner with
      | none => rfl
      | some qname => exact if_pos hr
    · rw [if_neg hr]
      cases rr.owner with
      | none => rfl
      | some qname => exact if_neg hr

/-- A message is registered if it is relevant, and counted as processed. -/
theorem decodeDnstapMessage_eq (now : BitVec 64) (ctx : Capture) (m : DnstapMessage) :
    (decodeDnstapMessage sha256 ldnsWire2pkt fprExceeds now ctx m).map Prod.snd =
      (match relevantQuestion ldnsWire2pkt m with
        | some (qname, qtype) =>
          registerQuestion sha256 fprExceeds now ctx (queryClient m.queryAddress) qname qtype
        | none =>
          some (if (m.clientPacket.bind ldnsWire2pkt).isSome then ctx else ctx.skipped)).map
        Capture.processed := by
  rw [decodeDnstapMessage, relevantQuestion]
  rcases m.clientPacket with _ | message
  · rfl
  rcases Option.eq_none_or_eq_some (ldnsWire2pkt message) with h | ⟨question, h⟩
  · simp only [Option.bind_some, h]
    rfl
  simp only [Option.bind_some, h]
  rw [processQuestion_eq]
  rcases relevantRr question with _ | ⟨qname, qtype⟩
  · rfl
  dsimp only
  rcases registerQuestion sha256 fprExceeds now ctx (queryClient m.queryAddress) qname qtype
    with _ | ctx'
  · rfl
  · rfl

/-- What a message needs to be processed. -/
def Processable (ldnsWire2pkt : List Byte → Option (List LdnsRr)) (ctx : Capture)
    (m : DnstapMessage) : Prop :=
  ∀ qname qtype, relevantQuestion ldnsWire2pkt m = some (qname, qtype) →
    Registrable ctx m.queryAddress qname

variable (sha256 ldnsWire2pkt fprExceeds) in
/-- **One message.** -/
theorem decodeDnstapMessage_spec (hok : p.Ok) (now : BitVec 64) {ctx : Capture}
    (h : Serving p ctx) (m : DnstapMessage) :
    (Processable ldnsWire2pkt ctx m →
      ∃ ctx', (decodeDnstapMessage sha256 ldnsWire2pkt fprExceeds now ctx m).map Prod.snd =
        some ctx' ∧ Serving p ctx' ∧ SameSetup ctx ctx' ∧
        SamePeriod ctx.currentActiveState ctx'.currentActiveState ∧
        ctx'.instData.nProcessedQueries = ctx.instData.nProcessedQueries + 1) ∧
    (∀ ctx', (decodeDnstapMessage sha256 ldnsWire2pkt fprExceeds now ctx m).map Prod.snd =
      some ctx' → Processable ldnsWire2pkt ctx m) := by
  rw [decodeDnstapMessage_eq, Processable]
  rcases relevantQuestion ldnsWire2pkt m with _ | ⟨qname, qtype⟩
  · refine ⟨fun _ => ⟨_, rfl, ?_⟩, fun _ _ qname qtype h' => (by cases h')⟩
    split_ifs
    · exact ⟨⟨h.active, h.dryRun⟩, ⟨rfl, rfl⟩, ⟨rfl, rfl⟩, rfl⟩
    · exact ⟨⟨h.active, h.dryRun⟩, ⟨rfl, rfl⟩, ⟨rfl, rfl⟩, rfl⟩
  · obtain ⟨hsome, hconv⟩ := registerQuestion_isSome sha256 fprExceeds hok now h m.queryAddress
      qname qtype
    constructor
    · intro hreg
      obtain ⟨ctx', he, hs, hsetup, hproc, -, hperiod, -⟩ := hsome (hreg qname qtype rfl)
      dsimp only
      rw [he]
      exact ⟨_, rfl, ⟨hs.active, hs.dryRun⟩, ⟨hsetup.aggregate, hsetup.metadata⟩,
        ⟨hperiod.periodBegin, hperiod.periodEnd⟩, congrArg (· + 1) hproc⟩
    · intro ctx' he qname' qtype' h'
      cases h'
      obtain ⟨ctx₁, he₁, -⟩ := Option.map_eq_some_iff.1 he
      exact hconv ctx₁ he₁

theorem SameSetup.processable {ctx ctx' : Capture} (h : SameSetup ctx ctx') (m : DnstapMessage) :
    Processable ldnsWire2pkt ctx' m ↔ Processable ldnsWire2pkt ctx m := by
  rw [Processable, Processable]
  unfold Registrable
  rw [h.aggregate, h.metadata]

variable (sha256 ldnsWire2pkt fprExceeds) in
/-- **No message stops the collector** exactly if every message that is registered
    has a usable address, a name that fits, and a subnet search that ends. -/
theorem decodeAll_iff (hok : p.Ok) : ∀ {ms : List (BitVec 64 × DnstapMessage)} {ctx : Capture},
    Serving p ctx →
    ((∃ ctx', decodeAll sha256 ldnsWire2pkt fprExceeds ctx ms = some ctx' ∧
      ctx'.instData.nProcessedQueries = ctx.instData.nProcessedQueries + ms.length) ↔
    ∀ m ∈ ms, Processable ldnsWire2pkt ctx m.2)
  | [], ctx, _ => ⟨fun _ m hm => (by cases hm), fun _ => ⟨ctx, rfl, rfl⟩⟩
  | m :: ms, ctx, h => by
    obtain ⟨hsome, hconv⟩ := decodeDnstapMessage_spec sha256 ldnsWire2pkt fprExceeds hok m.1 h m.2
    rw [decodeAll, List.foldlM_cons, List.forall_mem_cons]
    constructor
    · rintro ⟨ctx', he, hp⟩
      obtain ⟨ctx₁, he₁, hrest⟩ := Option.bind_eq_some_iff.1 he
      have hm := hconv ctx₁ he₁
      obtain ⟨ctx₁', he₁', hs, hsetup, -, hp₁⟩ := hsome hm
      obtain rfl : ctx₁ = ctx₁' := Option.some.inj (he₁.symm.trans he₁')
      have hms := (decodeAll_iff hok hs).1 ⟨ctx', hrest, by rw [hp, hp₁, List.length_cons]; omega⟩
      exact ⟨hm, fun m' hm' => (hsetup.processable m'.2).1 (hms m' hm')⟩
    · rintro ⟨hm, hms⟩
      obtain ⟨ctx₁, he₁, hs, hsetup, -, hp₁⟩ := hsome hm
      obtain ⟨ctx', hrest, hp⟩ := (decodeAll_iff hok hs).2
        fun m' hm' => (hsetup.processable m'.2).2 (hms m' hm')
      refine ⟨ctx', ?_, by rw [hp, hp₁, List.length_cons]; omega⟩
      rw [he₁]
      exact hrest

end
/-! ## The states of the collector -/

section

variable {p : StateParams} {ctx : Capture}

/-- The collector serves a state that it has created. -/
theorem serving_of_create {s : HonasState}
    (hc : honasStateCreate p = some (.ok s)) (hs : ctx.currentActiveState = s)
    (hd : ∃ dryrun : Option ValidDryRun, ctx.dryRun = dryrun.map ValidDryRun.counters) :
    Serving p ctx ∧ OnHeap ctx.currentActiveState := by
  obtain ⟨s', hc', h, ho⟩ := honasStateCreate_represents (ok_of_create hc)
  obtain rfl : s = s' := Except.ok.inj (Option.some.inj (hc.symm.trans hc'))
  obtain ⟨hact, hheap⟩ := Active.of_owned h ho
  subst hs
  exact ⟨⟨hact, hd⟩, hheap⟩

/-- The collector serves a state that it has loaded from a file with such a header. -/
theorem serving_of_load (hok : p.Ok) {file : List Byte} {s : HonasState}
    (hl : file.length = p.size) (hc : ∀ f : HeaderField, f.isConfig → headerGet file f = p.config f)
    (hload : honasStateLoad (some file) = some (.ok s)) (hs : ctx.currentActiveState = s)
    (hd : ∃ dryrun : Option ValidDryRun, ctx.dryRun = dryrun.map ValidDryRun.counters) :
    Serving p ctx := by
  obtain ⟨s', hload', -, hshaped, hm⟩ := load_spec hok hl hc
  obtain rfl : s = s' := Except.ok.inj (Option.some.inj (hload.symm.trans hload'))
  subst hs
  exact ⟨.of_mapped hshaped hm, hd⟩

end

/-- No subnets. -/
def noSubnets : SubnetActivity := ⟨[], 0, 0, 0, 0, by decide, by decide⟩

/-- A collector without subnets and dry run. -/
def Capture.started (state : HonasState) : Capture where
  aggregateSubnets := false
  subnetMetadata := noSubnets
  dryRun := none
  fprWarningPassed := false
  currentActiveState := state
  instData := ⟨0, 0, 0, 0, 0, 0, 0, 0, 0, 0⟩

/-- A query for the addresses of `a`. -/
def queryForA : List Byte :=
  [0x00, 0x00, 0x01, 0x00, 0x00, 0x01, 0x00, 0x00, 0x00, 0x00, 0x00, 0x00,
    0x01, 0x61, 0x00, 0x00, 0x01, 0x00, 0x01]

/-- The text of its name. -/
def nameA : NameString := ⟨[0x61, 0x2e], by decide, by decide⟩

/-- What ldns makes of `queryForA`; other packets are rejected. -/
def parseQueryForA (wire : List Byte) : Option (List LdnsRr) :=
  if wire = queryForA then some [⟨some nameA, ldnsRrClassIn, 1⟩]
  else none

theorem processable_queryForA (s : HonasState) : Processable parseQueryForA (.started s)
    ⟨.clientQuery, some [192, 0, 2, 1], some queryForA⟩ := by
  intro qname qtype hq
  cases hq
  exact ⟨⟨_, rfl, .inl rfl⟩, by decide, nofun⟩

theorem decodeAll_queryForA : ∃ s ctx, honasStateCreate smallParams = some (.ok s) ∧
    decodeAll (fun _ => zeroDigest) parseQueryForA (fun _ _ _ => false) (.started s)
      [(5, ⟨.clientQuery, some [192, 0, 2, 1], some queryForA⟩)] = some ctx ∧
    ctx.instData.nProcessedQueries = 1 := by
  obtain ⟨s, hc, -⟩ := honasStateCreate_represents smallParams_ok
  have hs : Serving smallParams (.started s) := (serving_of_create hc rfl ⟨none, rfl⟩).1
  have hprocessable : ∀ m ∈ [((5 : BitVec 64),
      (⟨.clientQuery, some [192, 0, 2, 1], some queryForA⟩ : DnstapMessage))],
      Processable parseQueryForA (.started s) m.2 :=
    List.forall_mem_singleton.2 (processable_queryForA s)
  obtain ⟨ctx, he, hp⟩ := (decodeAll_iff (fun _ => zeroDigest) parseQueryForA (fun _ _ _ => false)
    smallParams_ok hs).2 hprocessable
  exact ⟨s, ctx, hc, he, hp⟩

/-- Without an address, the same query stops the collector. -/
theorem decode_withoutAddress : ¬ ∀ s, honasStateCreate smallParams = some (.ok s) →
    ∀ m : DnstapMessage, ∃ ctx,
      (decodeDnstapMessage (fun _ => zeroDigest) parseQueryForA (fun _ _ _ => false) 5 (.started s)
        m).map Prod.snd = some ctx ∧ ctx.instData.nProcessedQueries = 1 := by
  intro hall
  obtain ⟨s, hc, -⟩ := honasStateCreate_represents smallParams_ok
  have hs : Serving smallParams (.started s) := (serving_of_create hc rfl ⟨none, rfl⟩).1
  obtain ⟨ctx, he, -⟩ := hall s hc ⟨.clientQuery, none, some queryForA⟩
  obtain ⟨⟨bytes, hbytes, -⟩, -⟩ := (decodeDnstapMessage_spec (fun _ => zeroDigest) parseQueryForA
    (fun _ _ _ => false) smallParams_ok 5 hs _).2 ctx he nameA 1 rfl
  cases hbytes

end Honas

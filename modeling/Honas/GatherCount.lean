/-
  Counting queries (`src/instrumentation.c`, `decode_dnstap_message`).

  A message is counted as processed, and as accepted or as skipped.  The accepted
  ones are counted once more by their type, and by whether the client is in a
  subnet.  A query whose packet is valid, but whose question is of no interest,
  is neither accepted nor skipped.

  `decodeAll_balanced_iff`: the counters add up exactly if there is no such query.
-/
import Honas.GatherDecode
import Honas.Lib.Run

namespace Honas

open Bits

namespace Instrumentation

/-- `instrumentation_reset`. -/
def reset (inst : Instrumentation) : Instrumentation :=
  { inst with
    nProcessedQueries := 0
    nAcceptedQueries := 0
    nSkippedQueries := 0
    nAQueries := 0
    nAaaaQueries := 0
    nNsQueries := 0
    nMxQueries := 0
    nPtrQueries := 0
    nQueriesInSubnet := 0
    nQueriesNotInSubnet := 0 }

/-- The queries that are counted by their type. -/
def nTypeQueries (inst : Instrumentation) : ℕ :=
  inst.nAQueries + inst.nAaaaQueries + inst.nNsQueries + inst.nMxQueries + inst.nPtrQueries

/-- The accepted queries are those that are counted by their type and, if subnets are
    aggregated, by the subnet of the client. -/
structure Sums (aggregateSubnets : Bool) (inst : Instrumentation) : Prop where
  types : inst.nAcceptedQueries = inst.nTypeQueries
  subnets : aggregateSubnets = true →
    inst.nAcceptedQueries = inst.nQueriesInSubnet + inst.nQueriesNotInSubnet

/-- The counters add up. -/
structure Balanced (aggregateSubnets : Bool) (inst : Instrumentation) : Prop
    extends inst.Sums aggregateSubnets where
  processed : inst.nProcessedQueries = inst.nAcceptedQueries + inst.nSkippedQueries

/-- The counters add up, but for `lost` processed queries. -/
structure Accounts (aggregateSubnets : Bool) (lost : ℕ) (inst : Instrumentation) : Prop
    extends inst.Sums aggregateSubnets where
  processed : inst.nProcessedQueries = inst.nAcceptedQueries + inst.nSkippedQueries + lost

theorem accounts_reset (aggregateSubnets : Bool) (inst : Instrumentation) :
    inst.reset.Accounts aggregateSubnets 0 := ⟨⟨rfl, fun _ => rfl⟩, rfl⟩

theorem Accounts.balanced_iff {aggregateSubnets : Bool} {lost : ℕ} {inst : Instrumentation}
    (h : inst.Accounts aggregateSubnets lost) : inst.Balanced aggregateSubnets ↔ lost = 0 := by
  constructor
  · intro hb
    have h1 := hb.processed
    have h2 := h.processed
    omega
  · rintro rfl
    exact ⟨h.toSums, h.processed⟩

/-- One of the counters by type is incremented for a type that is accepted. -/
theorem incrementType_nTypeQueries (inst : Instrumentation) {qtype : ℕ}
    (h : queryIsValidDnsType qtype = true) :
    (inst.incrementType qtype).nTypeQueries = inst.nTypeQueries + 1 := by
  have hmem : qtype ∈ [1, 2, 15, 28, 12] := of_decide_eq_true h
  simp only [List.mem_cons, List.not_mem_nil, or_false] at hmem
  rcases hmem with rfl | rfl | rfl | rfl | rfl <;>
    simp only [incrementType, nTypeQueries] <;> omega

/-- The other counters stay as they are. -/
theorem incrementType_frame (inst : Instrumentation) (qtype : ℕ) :
    (inst.incrementType qtype).nProcessedQueries = inst.nProcessedQueries ∧
    (inst.incrementType qtype).nAcceptedQueries = inst.nAcceptedQueries ∧
    (inst.incrementType qtype).nSkippedQueries = inst.nSkippedQueries ∧
    (inst.incrementType qtype).nQueriesInSubnet = inst.nQueriesInSubnet ∧
    (inst.incrementType qtype).nQueriesNotInSubnet = inst.nQueriesNotInSubnet := by
  unfold incrementType
  split <;> exact ⟨rfl, rfl, rfl, rfl, rfl⟩

/-- **An accepted query** is counted in each of the sums. -/
theorem Accounts.accept {aggregateSubnets : Bool} {lost isIn notIn qtype : ℕ}
    {inst : Instrumentation} (h : inst.Accounts aggregateSubnets lost)
    (hq : queryIsValidDnsType qtype = true)
    (hsum : isIn + notIn = if aggregateSubnets then 1 else 0) :
    ((inst.updateSubnetActivity isIn notIn).incrementAccepted.incrementType
      qtype).incrementProcessed.Accounts aggregateSubnets lost := by
  have htype := (inst.updateSubnetActivity isIn notIn).incrementAccepted.incrementType_nTypeQueries hq
  obtain ⟨h1, h2, h3, h4, h5⟩ :=
    (inst.updateSubnetActivity isIn notIn).incrementAccepted.incrementType_frame qtype
  refine ⟨⟨?_, fun hon => ?_⟩, ?_⟩
  · calc _ = inst.nAcceptedQueries + 1 := h2
      _ = inst.nTypeQueries + 1 := by rw [h.types]
      _ = _ := htype.symm
  · have hsub := h.subnets hon
    rw [if_pos hon] at hsum
    calc _ = inst.nAcceptedQueries + 1 := h2
      _ = (inst.nQueriesInSubnet + isIn) + (inst.nQueriesNotInSubnet + notIn) := by omega
      _ = _ := (congrArg₂ (· + ·) h4 h5).symm
  · have hproc := h.processed
    calc _ = inst.nProcessedQueries + 1 := congrArg (· + 1) h1
      _ = inst.nAcceptedQueries + 1 + inst.nSkippedQueries + lost := by omega
      _ = _ := (congrArg₂ (fun x y => x + y + lost) h2 h3).symm

theorem Accounts.skip {aggregateSubnets : Bool} {lost : ℕ} {inst : Instrumentation}
    (h : inst.Accounts aggregateSubnets lost) :
    inst.incrementSkipped.incrementProcessed.Accounts aggregateSubnets lost := by
  refine ⟨⟨h.types, h.subnets⟩, ?_⟩
  have hproc := h.processed
  simp only [incrementProcessed, incrementSkipped]
  omega

theorem Accounts.lose {aggregateSubnets : Bool} {lost : ℕ} {inst : Instrumentation}
    (h : inst.Accounts aggregateSubnets lost) :
    inst.incrementProcessed.Accounts aggregateSubnets (lost + 1) :=
  ⟨⟨h.types, h.subnets⟩, congrArg (· + 1) h.processed⟩

end Instrumentation

section

variable {sha256 : List Byte → Digest} {ldnsWire2pkt : List Byte → Option (List LdnsRr)}
  {fprExceeds : ℕ → ℕ → ℕ → Bool} {ctx ctx' : Capture}

/-- A lookup of the subnet is counted once. -/
theorem matchSubnet_counts {client : InAddr46} {entity : Option EntityName}
    (h : matchSubnet ctx client = some (entity, ctx')) :
    ctx'.aggregateSubnets = ctx.aggregateSubnets ∧
    ∃ isIn notIn, ctx'.instData = ctx.instData.updateSubnetActivity isIn notIn ∧
      isIn + notIn = if ctx.aggregateSubnets then 1 else 0 := by
  rw [matchSubnet] at h
  split_ifs at h with hagg
  · obtain ⟨found, -, h⟩ := Option.bind_eq_some_iff.1 h
    obtain ⟨rfl, rfl⟩ := Prod.mk.inj (Option.some.inj h)
    refine ⟨rfl, _, _, rfl, ?_⟩
    rw [if_pos hagg]
    cases found <;> rfl
  · obtain ⟨rfl, rfl⟩ := Prod.mk.inj (Option.some.inj h)
    exact ⟨rfl, 0, 0, rfl, (if_neg hagg).symm⟩

/-- A question that is registered is accepted. -/
theorem registerQuestion_accounts {now : BitVec 64} {client : InAddr46} {qname : NameString}
    {qtype lost : ℕ} (hq : queryIsValidDnsType qtype = true)
    (h : ctx.instData.Accounts ctx.aggregateSubnets lost)
    (hreg : registerQuestion sha256 fprExceeds now ctx client qname qtype = some ctx') :
    ctx'.aggregateSubnets = ctx.aggregateSubnets ∧
      ctx'.processed.instData.Accounts ctx.aggregateSubnets lost := by
  obtain ⟨⟨entity, ctx₁⟩, hmatch, hreg⟩ := Option.bind_eq_some_iff.1 hreg
  obtain ⟨⟨state, dryRun⟩, -, hreg⟩ := Option.bind_eq_some_iff.1 hreg
  obtain rfl := Option.some.inj hreg
  obtain ⟨hagg, isIn, notIn, hinst, hsum⟩ := matchSubnet_counts hmatch
  refine ⟨hagg, ?_⟩
  rw [Capture.processed, hinst]
  exact h.accept hq hsum

/-- The packet of a message is valid, but its question is of no interest. -/
def Ignored (ldnsWire2pkt : List Byte → Option (List LdnsRr)) (m : DnstapMessage) : Prop :=
  (m.clientPacket.bind ldnsWire2pkt).isSome = true ∧ relevantQuestion ldnsWire2pkt m = none

instance (m : DnstapMessage) : Decidable (Ignored ldnsWire2pkt m) :=
  inferInstanceAs (Decidable (_ ∧ _))

theorem relevantRr_valid {question : List LdnsRr} {qname : NameString} {qtype : ℕ}
    (h : relevantRr question = some (qname, qtype)) : queryIsValidDnsType qtype = true := by
  cases question with
  | nil => cases h
  | cons rr rest =>
    rw [relevantRr] at h
    split_ifs at h with hr
    obtain ⟨qname', -, h⟩ := Option.map_eq_some_iff.1 h
    rw [← (Prod.mk.inj h).2]
    exact hr.2

/-- **One message** is accounted for, unless it is ignored. -/
theorem decodeDnstapMessage_accounts {now : BitVec 64} {m : DnstapMessage} {lost : ℕ}
    (h : ctx.instData.Accounts ctx.aggregateSubnets lost)
    (hdec : (decodeDnstapMessage sha256 ldnsWire2pkt fprExceeds now ctx m).map Prod.snd = some ctx') :
    ctx'.aggregateSubnets = ctx.aggregateSubnets ∧ ctx'.instData.Accounts ctx.aggregateSubnets
      (lost + if Ignored ldnsWire2pkt m then 1 else 0) := by
  rw [decodeDnstapMessage_eq] at hdec
  obtain ⟨ctx₁, hctx₁, rfl⟩ := Option.map_eq_some_iff.1 hdec
  rcases hrel : relevantQuestion ldnsWire2pkt m with _ | ⟨qname, qtype⟩
  · rw [hrel] at hctx₁
    obtain rfl := Option.some.inj hctx₁
    split_ifs with hvalid hign hign
    · exact ⟨rfl, h.lose⟩
    · exact absurd ⟨hvalid, hrel⟩ hign
    · exact absurd hign.1 hvalid
    · exact ⟨rfl, h.skip⟩
  · rw [hrel] at hctx₁
    obtain ⟨question, -, hrr⟩ := Option.bind_eq_some_iff.1 hrel
    rw [if_neg fun hign : Ignored ldnsWire2pkt m => nomatch hrel.symm.trans hign.2]
    exact registerQuestion_accounts (relevantRr_valid hrr) h hctx₁

/-- All messages. -/
theorem decodeAll_accounts {ms : List (BitVec 64 × DnstapMessage)}
    (h : ctx.instData.Accounts ctx.aggregateSubnets 0)
    (hrun : decodeAll sha256 ldnsWire2pkt fprExceeds ctx ms = some ctx') :
    ctx'.aggregateSubnets = ctx.aggregateSubnets ∧ ctx'.instData.Accounts ctx.aggregateSubnets
      (ms.countP fun m => Ignored ldnsWire2pkt m.2) := by
  refine Run.rel_of_run (R := fun (seen : List (BitVec 64 × DnstapMessage)) (c : Capture) =>
    c.aggregateSubnets = ctx.aggregateSubnets ∧ c.instData.Accounts ctx.aggregateSubnets
      (seen.countP fun m => Ignored ldnsWire2pkt m.2)) ?_ ms (h := []) ⟨rfl, h⟩ hrun
  rintro seen c m c' ⟨hagg, hc⟩ hdec
  rw [← hagg] at hc ⊢
  rw [List.countP_append, List.countP_singleton]
  simpa using decodeDnstapMessage_accounts hc hdec

/-- **The counters add up** after a reset exactly if no message with a valid packet has a
    question that is of no interest. -/
theorem decodeAll_balanced_iff {ms : List (BitVec 64 × DnstapMessage)} {inst : Instrumentation}
    (hrun : decodeAll sha256 ldnsWire2pkt fprExceeds { ctx with instData := inst.reset } ms =
      some ctx') :
    ctx'.instData.Balanced ctx.aggregateSubnets ↔ ∀ m ∈ ms, ¬ Ignored ldnsWire2pkt m.2 := by
  have hreset : ({ ctx with instData := inst.reset } : Capture).instData.Accounts
      ctx.aggregateSubnets 0 := inst.accounts_reset _
  obtain ⟨-, hacc⟩ := decodeAll_accounts hreset hrun
  rw [hacc.balanced_iff, List.countP_eq_zero]
  simp only [decide_eq_true_eq]

end

/-- An accepted query, a packet that is rejected, and a message of another type. -/
def countedMessages : List (BitVec 64 × DnstapMessage) :=
  [(5, ⟨.clientQuery, some [192, 0, 2, 1], some queryForA⟩),
    (6, ⟨.clientQuery, some [192, 0, 2, 1], some []⟩), (7, ⟨.clientResponse, none, none⟩)]

/-- The counters add up for them. -/
theorem decodeAll_balanced_counted : ∃ s ctx', honasStateCreate smallParams = some (.ok s) ∧
    decodeAll (fun _ => zeroDigest) parseQueryForA (fun _ _ _ => false) (.started s)
      countedMessages = some ctx' ∧ ctx'.instData.Balanced false := by
  obtain ⟨s, hc, -⟩ := honasStateCreate_represents smallParams_ok
  have hs : Serving smallParams (.started s) := (serving_of_create hc rfl ⟨none, rfl⟩).1
  have hprocessable : ∀ m ∈ countedMessages, Processable parseQueryForA (.started s) m.2 :=
    List.forall_mem_cons.2 ⟨processable_queryForA s, List.forall_mem_cons.2 ⟨nofun,
      List.forall_mem_singleton.2 nofun⟩⟩
  obtain ⟨ctx', hrun, -⟩ := (decodeAll_iff (fun _ => zeroDigest) parseQueryForA
    (fun _ _ _ => false) smallParams_ok hs).2 hprocessable
  have hreset : Capture.started s = { Capture.started s with
    instData := (Capture.started s).instData.reset } := rfl
  refine ⟨s, ctx', hc, hrun, ?_⟩
  rw [hreset] at hrun
  exact (decodeAll_balanced_iff hrun).2 (by decide)

/-- A query for the text records of `a`. -/
def queryForTxt : List Byte :=
  [0x00, 0x00, 0x01, 0x00, 0x00, 0x01, 0x00, 0x00, 0x00, 0x00, 0x00, 0x00,
    0x01, 0x61, 0x00, 0x00, 0x10, 0x00, 0x01]

/-- What ldns makes of `queryForTxt`; other packets are rejected. -/
def parseQueryForTxt (wire : List Byte) : Option (List LdnsRr) :=
  if wire = queryForTxt then some [⟨some nameA, ldnsRrClassIn, 16⟩]
  else none

/-- A query for text records is processed, but neither accepted nor skipped. -/
theorem decodeAll_notBalanced : ∃ s ctx', honasStateCreate smallParams = some (.ok s) ∧
    decodeAll (fun _ => zeroDigest) parseQueryForTxt (fun _ _ _ => false) (.started s)
      [(5, ⟨.clientQuery, some [192, 0, 2, 1], some queryForTxt⟩)] = some ctx' ∧
    ctx'.instData.nProcessedQueries = 1 ∧ ctx'.instData.nAcceptedQueries = 0 ∧
    ctx'.instData.nSkippedQueries = 0 ∧ ¬ ctx'.instData.Balanced false := by
  obtain ⟨s, hc, -⟩ := honasStateCreate_represents smallParams_ok
  refine ⟨s, (Capture.started s).processed, hc, rfl, rfl, rfl, rfl, fun h => ?_⟩
  exact Nat.one_ne_zero h.processed

end Honas

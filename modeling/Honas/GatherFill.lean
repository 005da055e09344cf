/-
  The check of the fill of the filters in `decode_dnstap_message`.

  After each lookup the collector computes the false positive rate of each
  filter from `filter_bits_set`, where only `honas_state_persist` stores the
  number of bits set.  From the creation of a state up to its persisting the
  counts are zero:

  * `fillSeen_iff`: the check sees the fill of the filters exactly if there is
    no lookup to register, and it never leads to a warning.
-/
import Honas.GatherDecode

namespace Honas

open Bits

/-- `filter_bits_set` has the number of bits set of each filter. -/
def FillSeen (s : HonasState) : Prop :=
  ∀ i < s.header .numberOfFilters, ∃ filter, s.filter i = some filter ∧
    s.filterBitsSetAt i = countBits filter.bytes

/-- The collector serves a state that it has created: the counters are on the heap
    and the counts of the bits set are still zero. -/
structure Unfilled (p : StateParams) (ctx : Capture) : Prop extends Serving p ctx where
  heap : OnHeap ctx.currentActiveState
  zero : ∀ x, 8 * sizeofHeader ≤ x → x < 8 * p.first → bitAt ctx.currentActiveState.mmap x = false

section

variable {p : StateParams}

theorem unfilled_of_create {ctx : Capture} {s : HonasState}
    (hc : honasStateCreate p = some (.ok s)) (hs : ctx.currentActiveState = s)
    (hd : ∃ dryrun : Option ValidDryRun, ctx.dryRun = dryrun.map ValidDryRun.counters) :
    Unfilled p ctx := by
  obtain ⟨hserving, hheap⟩ := serving_of_create hc hs hd
  obtain ⟨s', hc', -, -, -, hbits⟩ := honasStateCreate_spec (ok_of_create hc)
  obtain rfl : s = s' := Except.ok.inj (Option.some.inj (hc.symm.trans hc'))
  refine ⟨hserving, hheap, fun x hx _ => ?_⟩
  rw [hs]
  exact hbits x hx

theorem Unfilled.filterBitsSetAt {ctx : Capture} (h : Unfilled p ctx) {i : ℕ} (hi : i < p.n) :
    ctx.currentActiveState.filterBitsSetAt i = 0 := by
  have hfirst := p.header_le_first
  refine Nat.eq_of_testBit_eq fun j => ?_
  rw [HonasState.filterBitsSetAt, testBit_ofLE, bitAt_slice, Nat.zero_testBit,
    h.active.filterBitsSet]
  by_cases hj : j < 8 * 4
  · rw [h.zero _ (by omega) (by omega), Bool.and_false]
  · rw [decide_eq_false hj, Bool.false_and]

/-- The positions of the bits of a digest are behind the counts. -/
theorem StateParams.first_le_storedPos {filters : List ℕ} {d : Digest} {x : ℕ}
    (hx : x ∈ p.storedPos filters d) : 8 * p.first ≤ x := by
  simp only [storedPos, List.mem_flatMap, List.mem_map] at hx
  obtain ⟨f, -, b, -, rfl⟩ := hx
  unfold filterPos
  omega

/-- A digest has bits in each filter. -/
theorem StateParams.Ok.exists_offset (h : p.Ok) (f : ℕ) (d : Digest) : ∃ b, b ∈ p.offsets f d := by
  have hl := (transform_spec f d).2
  obtain ⟨offsets, he, hlen, -⟩ := bloomDetermineOffsets_spec h.bloomOk.pos h.bloomOk.lt
    h.bloomOk.num_pos (show 0 < (transformed f d).length by omega) (by omega)
  rw [StateParams.offsets, bloomOffsets, he]
  exact List.exists_mem_of_length_pos (by rw [Option.getD_some, hlen]; exact h.hashes)

/-- Storing sets a bit of some filter, so its count is no longer zero. -/
theorem not_fillSeen {sha256 : List Byte → Digest} {s : HonasState} {ctx : Capture} (hok : p.Ok)
    (h : Unfilled p ctx) (hs : StoredBits sha256 p s ctx.currentActiveState) :
    ¬FillSeen ctx.currentActiveState := by
  obtain ⟨hash, names, hne, hbits⟩ := hs
  obtain ⟨stored, names, rfl⟩ := List.exists_cons_of_ne_nil hne
  obtain ⟨-, -, -, -, hsub⟩ := hok.filtersOf_spec hash
  obtain ⟨f, hf⟩ := List.exists_mem_of_length_pos (show 0 < (p.filtersOf hash).length by
    rw [hsub.length]; exact hok.perUser)
  have hfn := hsub.lt f hf
  obtain ⟨b, hb⟩ := hok.exists_offset f (sha256 stored.name)
  have hlt := hok.offsets_lt b hb
  have hmem := (hok.mem_storedPos hlt).2 ⟨hf, hb⟩
  have hset : bitAt ctx.currentActiveState.mmap (p.filterPos f b) = true :=
    (hbits _ (p.header_le_storedPos hmem)).2 (.inr ⟨stored, List.mem_cons_self .., hmem⟩)
  intro hseen
  have hshaped := h.active.toShaped
  obtain ⟨filter, hfilter, hcount⟩ := hseen f (by
    rw [hshaped.config .numberOfFilters rfl]
    exact hfn)
  rw [filter_eq hshaped hfn] at hfilter
  have hpos : 0 < countBits filter.bytes := by
    cases hfilter
    refine countBits_pos (i := b) ?_
    rw [bitAt_slice, decide_eq_true hlt, Bool.true_and]
    exact hset
  rw [h.filterBitsSetAt hfn] at hcount
  omega

/-- As long as the counts are zero, there is no warning. -/
theorem Unfilled.checkFalsePositiveRates {fprExceeds : ℕ → ℕ → ℕ → Bool} {ctx : Capture}
    (hok : p.Ok) (h : Unfilled p ctx)
    (hempty : ∀ bits hashes, 0 < hashes → fprExceeds 0 bits hashes = false) (passed : Bool) :
    checkFalsePositiveRates fprExceeds ctx.currentActiveState passed = passed := by
  have hshaped := h.active.toShaped
  have hloop : ∀ (is : List ℕ), (∀ i ∈ is, i < p.n) →
      is.foldl (fun passed i => if fprExceeds (ctx.currentActiveState.filterBitsSetAt i)
        (ctx.currentActiveState.header .numberOfBitsPerFilter)
        (ctx.currentActiveState.header .numberOfHashes) && !passed then true else passed) passed =
      passed := by
    intro is
    induction is with
    | nil => intro _; rfl
    | cons i is ih =>
      intro hlt
      rw [List.foldl_cons, h.filterBitsSetAt (hlt i (List.mem_cons_self ..)), hempty _ _ (by
        rw [hshaped.config .numberOfHashes rfl]; exact hok.hashes), Bool.false_and,
        if_neg Bool.false_ne_true]
      exact ih fun j hj => hlt j (List.mem_cons_of_mem _ hj)
  refine hloop _ fun i hi => ?_
  rw [List.mem_range, hshaped.config .numberOfFilters rfl] at hi
  exact hi

end

/-! ## Runs -/

section

variable {sha256 : List Byte → Digest} {ldnsWire2pkt : List Byte → Option (List LdnsRr)}
  {fprExceeds : ℕ → ℕ → ℕ → Bool} {p : StateParams}

/-- One message: the counts stay zero. -/
theorem Unfilled.decode (hok : p.Ok) {now : BitVec 64} {ctx ctx' : Capture} {m : DnstapMessage}
    (h : Unfilled p ctx)
    (hm : (decodeDnstapMessage sha256 ldnsWire2pkt fprExceeds now ctx m).map Prod.snd = some ctx') :
    Unfilled p ctx' ∧
      ((relevantQuestion ldnsWire2pkt m).isSome = true → ¬FillSeen ctx'.currentActiveState) ∧
      ((∀ bits hashes, 0 < hashes → fprExceeds 0 bits hashes = false) →
        ctx'.fprWarningPassed = ctx.fprWarningPassed) := by
  rw [decodeDnstapMessage_eq] at hm
  rcases hq : relevantQuestion ldnsWire2pkt m with _ | ⟨qname, qtype⟩
  · simp only [hq] at hm
    have hsame : Unfilled p ctx' ∧ ctx'.fprWarningPassed = ctx.fprWarningPassed := by
      obtain rfl := Option.some.inj hm
      split_ifs
      · exact ⟨⟨⟨h.active, h.dryRun⟩, h.heap, h.zero⟩, rfl⟩
      · exact ⟨⟨⟨h.active, h.dryRun⟩, h.heap, h.zero⟩, rfl⟩
    exact ⟨hsame.1, nofun, fun _ => hsame.2⟩
  · simp only [hq] at hm
    obtain ⟨ctx₁, he, rfl⟩ := Option.map_eq_some_iff.1 hm
    obtain ⟨hsome, hconv⟩ := registerQuestion_isSome sha256 fprExceeds hok now h.toServing
      m.queryAddress qname qtype
    obtain ⟨ctx₁', he', hserving, -, -, hfpr, -, hheap⟩ := hsome (hconv ctx₁ he)
    obtain rfl : ctx₁ = ctx₁' := Option.some.inj (he.symm.trans he')
    obtain ⟨hheap₁, hstored⟩ := hheap h.heap
    have h₁ : Unfilled p ctx₁ := by
      refine ⟨hserving, hheap₁, fun x hx hlt => ?_⟩
      obtain ⟨hash, names, -, hbits⟩ := hstored
      refine Bool.eq_false_of_not_eq_true fun hset => ?_
      rcases (hbits x hx).1 hset with hold | ⟨stored, -, hpos⟩
      · rw [h.zero x hx hlt] at hold
        cases hold
      · have := p.first_le_storedPos hpos
        omega
    have h' : Unfilled p ctx₁.processed := ⟨⟨h₁.active, h₁.dryRun⟩, h₁.heap, h₁.zero⟩
    exact ⟨h', fun _ => not_fillSeen hok h' hstored,
      fun hempty => hfpr.trans (h₁.checkFalsePositiveRates hok hempty _)⟩

/-- A run of messages: the counts stay zero, and there is no warning. -/
theorem Unfilled.decodeAll (hok : p.Ok) : ∀ {ms : List (BitVec 64 × DnstapMessage)}
    {ctx ctx' : Capture}, Unfilled p ctx →
    decodeAll sha256 ldnsWire2pkt fprExceeds ctx ms = some ctx' →
    Unfilled p ctx' ∧ ((∀ bits hashes, 0 < hashes → fprExceeds 0 bits hashes = false) →
      ctx'.fprWarningPassed = ctx.fprWarningPassed)
  | [], ctx, ctx', h, hrun => by
    cases hrun
    exact ⟨h, fun _ => rfl⟩
  | m :: ms, ctx, ctx', h, hrun => by
    obtain ⟨ctx₁, hm, hrest⟩ := Option.bind_eq_some_iff.1 hrun
    obtain ⟨h₁, -, hfpr₁⟩ := h.decode hok hm
    obtain ⟨h', hfpr⟩ := Unfilled.decodeAll hok h₁ hrest
    exact ⟨h', fun hempty => (hfpr hempty).trans (hfpr₁ hempty)⟩

/-- **The check of the false positive rates does not see the fill.**  In a run from
    a created state, each check sees the number of bits set in the filters if and
    only if nothing is registered; there is never a warning. -/
theorem fillSeen_iff {s : HonasState} (hc : honasStateCreate p = some (.ok s)) {ctx ctx' : Capture}
    (hs : ctx.currentActiveState = s)
    (hd : ∃ dryrun : Option ValidDryRun, ctx.dryRun = dryrun.map ValidDryRun.counters)
    {ms : List (BitVec 64 × DnstapMessage)}
    (hrun : decodeAll sha256 ldnsWire2pkt fprExceeds ctx ms = some ctx') :
    ((∀ before m after ctx₁, ms = before ++ m :: after →
        (relevantQuestion ldnsWire2pkt m.2).isSome = true →
        decodeAll sha256 ldnsWire2pkt fprExceeds ctx (before ++ [m]) = some ctx₁ →
        FillSeen ctx₁.currentActiveState) ↔
      ∀ m ∈ ms, relevantQuestion ldnsWire2pkt m.2 = none) ∧
    ((∀ bits hashes, 0 < hashes → fprExceeds 0 bits hashes = false) →
      ctx'.fprWarningPassed = ctx.fprWarningPassed) := by
  have hok := ok_of_create hc
  have h := unfilled_of_create hc hs hd
  refine ⟨⟨fun hseen m hm => ?_, fun hnone before m after ctx₁ he hsome _ => ?_⟩,
    (h.decodeAll hok hrun).2⟩
  · obtain ⟨before, after, rfl⟩ := List.append_of_mem hm
    -- the run up to `m`
    rw [Honas.decodeAll, List.foldlM_append] at hrun
    obtain ⟨ctx₀, hbefore, hrest⟩ := Option.bind_eq_some_iff.1 hrun
    obtain ⟨ctx₁, hm₁, -⟩ := Option.bind_eq_some_iff.1 hrest
    have hone : Honas.decodeAll sha256 ldnsWire2pkt fprExceeds ctx (before ++ [m]) = some ctx₁ := by
      rw [Honas.decodeAll, List.foldlM_append, hbefore]
      exact congrArg (Option.bind · some) hm₁
    have hnot := ((h.decodeAll hok hbefore).1.decode hok hm₁).2.1
    rw [← Option.not_isSome_iff_eq_none]
    exact fun hrel => hnot hrel (hseen before m after ctx₁ rfl hrel hone)
  · rw [hnone m (by rw [he]; exact List.mem_append_right _ (List.mem_cons_self ..))] at hsome
    cases hsome

end

/-- Whether a rate exceeds one in a thousand. -/
def rateExceeds (bitsSet bits hashes : ℕ) : Bool := decide (bits ^ hashes < bitsSet ^ hashes * 1000)

/-- One query on a new state. -/
theorem exists_decodeAll_queryForA (fprExceeds : ℕ → ℕ → ℕ → Bool) :
    ∃ s ctx, honasStateCreate smallParams = some (.ok s) ∧
      decodeAll (fun _ => zeroDigest) parseQueryForA fprExceeds (.started s)
        [(5, ⟨.clientQuery, some [192, 0, 2, 1], some queryForA⟩)] = some ctx := by
  obtain ⟨s, hc, -⟩ := honasStateCreate_represents smallParams_ok
  have hs : Serving smallParams (.started s) := (serving_of_create hc rfl ⟨none, rfl⟩).1
  obtain ⟨ctx, he, -⟩ := (decodeDnstapMessage_spec (fun _ => zeroDigest) parseQueryForA fprExceeds
    smallParams_ok 5 hs _).1 (processable_queryForA s)
  exact ⟨s, ctx, hc, by rw [decodeAll, List.foldlM_cons, he]; rfl⟩

theorem fillSeen_queryForA : ∃ s ctx, honasStateCreate smallParams = some (.ok s) ∧
    decodeAll (fun _ => zeroDigest) parseQueryForA rateExceeds (.started s)
      [(5, ⟨.clientQuery, some [192, 0, 2, 1], some queryForA⟩)] = some ctx ∧
    ctx.fprWarningPassed = false := by
  obtain ⟨s, ctx, hc, hrun⟩ := exists_decodeAll_queryForA rateExceeds
  exact ⟨s, ctx, hc, hrun, (fillSeen_iff hc rfl ⟨none, rfl⟩ hrun).2 fun bits hashes h => by
    rw [rateExceeds, zero_pow h.ne', Nat.zero_mul]
    exact decide_eq_false (Nat.not_lt_zero _)⟩

/-- After one query one of eight bits is set, but none is counted. -/
theorem not_fillSeen_queryForA : ∃ s ctx, honasStateCreate smallParams = some (.ok s) ∧
    decodeAll (fun _ => zeroDigest) parseQueryForA rateExceeds (.started s)
      [(5, ⟨.clientQuery, some [192, 0, 2, 1], some queryForA⟩)] = some ctx ∧
    ¬FillSeen ctx.currentActiveState := by
  obtain ⟨s, ctx, hc, hrun⟩ := exists_decodeAll_queryForA rateExceeds
  obtain ⟨ctx₁, hm, hnil⟩ := Option.bind_eq_some_iff.1 hrun
  obtain rfl : ctx₁ = ctx := Option.some.inj hnil
  have h : Unfilled smallParams (.started s) := unfilled_of_create hc rfl ⟨none, rfl⟩
  exact ⟨s, ctx₁, hc, hrun, (h.decode smallParams_ok hm).2.1 rfl⟩

end Honas

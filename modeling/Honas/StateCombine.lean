/-
  Combining states (`honas_state_aggregate_combine`).

  Combining two states takes the union of their filters, the bitwise or of
  their registers, the sum of their requests, and the minimum and the maximum
  of their request times: it is `Tally.combine` (`combine_represents`).
-/
import Honas.StateCheck

namespace Honas

open Bits

/-! ## Filters -/

/-- States that can be combined. -/
structure Compatible (p q : StateParams) : Prop where
  filters : p.n = q.n
  bits : p.numberOfBitsPerFilter = q.numberOfBitsPerFilter
  hashes : p.hashes = q.hashes

namespace Compatible

theorem refl (p : StateParams) : Compatible p p := ⟨rfl, rfl, rfl⟩

theorem symm {p q : StateParams} (h : Compatible p q) : Compatible q p :=
  ⟨h.filters.symm, h.bits.symm, h.hashes.symm⟩

theorem trans {p q r : StateParams} (h : Compatible p q) (h' : Compatible q r) : Compatible p r :=
  ⟨h.filters.trans h'.filters, h.bits.trans h'.bits, h.hashes.trans h'.hashes⟩

variable {p q : StateParams} (h : Compatible p q)

include h

theorem len : p.len = q.len := by
  unfold StateParams.len; rw [h.bits]

theorem filterRegion (f : ℕ) : p.filterRegion f = q.filterRegion f := by
  unfold StateParams.filterRegion StateParams.first StateParams.stride
  rw [h.len, h.filters]

theorem filterPos (f b : ℕ) : p.filterPos f b = q.filterPos f b :=
  congrArg (fun r : Region => 8 * r.off + b) (h.filterRegion f)

end Compatible

section

variable {p q : StateParams} {a b : Tally} {s t : HonasState}

/-- The filters after combining some of them. -/
theorem combineFilter_spec (hpq : Compatible p q) (ht : Shaped q t) (hs : Shaped p s) {f : ℕ}
    (hf : f < p.n) :
    ∃ m, combineFilter t s f = some { s with mmap := m } ∧ m.length = s.mmap.length ∧
      ∀ i, bitAt m i = (bitAt s.mmap i ||
        (decide (8 * (p.first + f * p.stride) ≤ i ∧ i < 8 * (p.first + f * p.stride + p.len)) &&
          bitAt t.mmap i)) := by
  obtain ⟨hreg, hread, hlen⟩ := hs.filter hf
  obtain ⟨hreg', hread', hlen'⟩ := ht.filter (hpq.filters ▸ hf)
  have hoff : q.first + f * q.stride = p.first + f * p.stride :=
    (congrArg Region.off (hpq.filterRegion f)).symm
  rw [← hpq.len, hoff] at hread' hlen'
  have hor := byteSliceBitwiseOr_eq
    (t := ⟨p.first + f * p.stride, slice s.mmap (p.first + f * p.stride) p.len⟩)
    (o := ⟨p.first + f * p.stride, slice t.mmap (p.first + f * p.stride) p.len⟩) rfl
  refine ⟨_, ?_, splice_orBytes hlen⟩
  rw [combineFilter, hreg, hreg']
  simp only [Option.bind_eq_bind, Option.bind_some, hread, hread', hor]
  rfl

/-- **Combining filters.** -/
theorem combineFilters_spec (hpq : Compatible p q) (ht : Represents q b t) :
    ∀ (l : List ℕ) {a : Tally} {s : HonasState}, (∀ f ∈ l, f < p.n) → Represents p a s → Owned p s →
      ∃ s', l.foldlM (combineFilter t) s = some s' ∧ Owned p s' ∧
        Represents p { a with filters := a.filters ∪ {x | x.1 ∈ l ∧ x ∈ b.filters} } s'
  | [], a, s, _, hs, ho => ⟨s, rfl, ho, by simpa using hs⟩
  | f :: l, a, s, hl, hs, ho => by
    rw [List.forall_mem_cons] at hl
    obtain ⟨m, he, hlen, hb⟩ := combineFilter_spec hpq ht.toShaped hs.toShaped hl.1
    obtain ⟨hs₁, hh⟩ := hs.toShaped.update s.counts hlen fun i hi => by
      have := p.header_le_first
      rw [hb, decide_eq_false (by omega), Bool.false_and, Bool.or_false]
    have h₁ : Represents p { a with filters := a.filters ∪ {x | x.1 = f ∧ x ∈ b.filters} }
        { s with mmap := m } := by
      refine ⟨hs₁, fun g hg i hi => ?_, fun c => ?_, (hh _).trans hs.requests,
        (Prod.ext (hh _) (hh _)).trans hs.times⟩
      · have hpos : (8 * (p.first + f * p.stride) ≤ p.filterPos g i ∧
            p.filterPos g i < 8 * (p.first + f * p.stride + p.len)) ↔ g = f := by
          constructor
          · rintro ⟨h1, h2⟩
            have heq : p.filterPos g i =
                p.filterPos f (p.filterPos g i - 8 * (p.first + f * p.stride)) := by
              rw [StateParams.filterPos.eq_def p f]; omega
            exact (StateParams.filterPos_inj hi (by omega) heq).1
          · rintro rfl
            unfold StateParams.filterPos; omega
        have hti := ht.bits g (hpq.filters ▸ hg) i (hpq.len ▸ hi)
        rw [← hpq.filterPos] at hti
        change bitAt m _ = true ↔ _
        rw [hb, Bool.or_eq_true, Bool.and_eq_true, hs.bits g hg i hi, hti, decide_eq_true_iff, hpos]
        rfl
      · obtain ⟨hll, hc, hr⟩ := hs.regs c
        rw [count_owned (ho.counts c)] at hc
        exact ⟨hll, (count_owned (s := { s with mmap := m }) (ho.counts c)).trans hc, hr⟩
    have ho₁ : Owned p { s with mmap := m } := by
      refine ⟨ho.counts, fun x hx hnx => ?_⟩
      change bitAt m x = false
      rw [hb, ho.blank x hx hnx, Bool.false_or, decide_eq_false, Bool.false_and]
      rintro ⟨h1, h2⟩
      exact hnx ⟨f, hl.1, x - 8 * (p.first + f * p.stride), by omega,
        by unfold StateParams.filterPos; omega⟩
    obtain ⟨s', he', ho', h'⟩ := combineFilters_spec hpq ht l hl.2 h₁ ho₁
    refine ⟨s', ?_, ho', ?_⟩
    · rw [List.foldlM_cons, he]
      exact he'
    · convert h' using 2
      ext x
      simp only [Set.mem_union, Set.mem_ofPred_eq, List.mem_cons, or_and_right, or_assoc]

/-! ## Counters -/

/-- **Merging a counter** takes the bitwise or of the registers. -/
theorem mergeCount_represents (hs : Represents p a s) (hos : Owned p s) (ht : Represents q b t)
    (hot : Owned q t) (c : Counter) :
    ∃ s' t', mergeCount c s t = some (s', t') ∧
      Represents p { a with regs := Function.update a.regs c fun r => a.regs c r ||| b.regs c r } s' ∧
      Owned p s' ∧ Represents q b t' ∧ Owned q t' := by
  have hd := hos.counts c
  have hsrc := hot.counts c
  obtain ⟨dst, src, hm, hdr, hsr, hdo, hda, hdt, hss⟩ :=
    hllMerge_spec (hs.regs_of_owned hos c) (ht.regs_of_owned hot c) hd.aligned hsrc.aligned
  have hdst : OwnedCount dst := ⟨hdo.trans hd.owned, hda, hdt hd.tail hsrc.tail⟩
  have hsrc' : OwnedCount src :=
    ⟨hss.owned.trans hsrc.owned, hss.aligned hsrc.aligned, hss.tail hsrc.tail⟩
  obtain ⟨hs', hos'⟩ := hs.setCount hos c hdst hdr
  obtain ⟨ht', hot'⟩ := ht.setCount hot c hsrc' hsr
  rw [Function.update_eq_self] at ht'
  refine ⟨_, _, ?_, hs', hos', ht', hot'⟩
  rw [mergeCount, count_owned hd, count_owned hsrc]
  simp only [Option.bind_eq_bind, Option.bind_some, hm]
  rw [HonasState.setCount, if_pos hdst.owned, HonasState.setCount, if_pos hsrc'.owned]

/-! ## The header -/

/-- Setting a field that is not part of the configuration. -/
theorem Represents.setField (h : Represents p a s) (ho : Owned p s) {f : HeaderField}
    (hf : f.isConfig = false) (v : ℕ) :
    Represents p { a with
      requests := if f = .numberOfRequests then v else a.requests
      times := (if f = .firstRequest then v % 2 ^ 64 else a.times.1,
        if f = .lastRequest then v % 2 ^ 64 else a.times.2) } (s.setHeader f v) ∧
      Owned p (s.setHeader f v) := by
  have ho' : Owned p (s.setHeader f v) := by
    refine ⟨ho.counts, fun x hx hnx => ?_⟩
    have := p.header_le_first
    rw [bitAt_setHeader h.toShaped _ _ (by omega)]
    exact ho.blank x hx hnx
  have ht := h.times
  have hh := header_setHeader h.toShaped f
  refine ⟨⟨h.toShaped.setHeader hf v, fun g hg i hi => ?_, fun c => ?_, ?_, ?_⟩, ho'⟩
  · have := p.header_le_first
    rw [bitAt_setHeader h.toShaped _ _ (by unfold StateParams.filterPos; omega)]
    exact h.bits g hg i hi
  · exact ⟨_, count_owned (ho'.counts c), h.regs_of_owned ho c⟩
  · rw [hh]
    by_cases hn : f = .numberOfRequests
    · subst hn; rfl
    · rw [if_neg (Ne.symm hn), if_neg hn]; exact h.requests
  · rw [← ht, HonasState.times, hh, hh]
    refine Prod.ext ?_ ?_
    · by_cases hn : f = .firstRequest
      · subst hn; rfl
      · simp only [if_neg hn, if_neg (Ne.symm hn)]; rfl
    · by_cases hn : f = .lastRequest
      · subst hn; rfl
      · simp only [if_neg hn, if_neg (Ne.symm hn)]; rfl

/-- A state keeps a tally up to filters it does not have and whole turns of the
    request counter. -/
theorem Represents.congr {a' : Tally} (h : Represents p a s)
    (hf : ∀ f < p.n, ∀ i, (f, i) ∈ a.filters ↔ (f, i) ∈ a'.filters) (hr : a.regs = a'.regs)
    (hn : a.requests % 2 ^ 64 = a'.requests % 2 ^ 64) (ht : a.times = a'.times) :
    Represents p a' s :=
  ⟨h.toShaped, fun f hfn i hi => (h.bits f hfn i hi).trans (hf f hfn i), hr ▸ h.regs,
    h.requests.trans hn, h.times.trans ht⟩

/-- The header fields of a state that keeps a tally. -/
theorem Represents.header_times (h : Represents p a s) :
    s.header .firstRequest = a.times.1 ∧ s.header .lastRequest = a.times.2 ∧
      a.times.1 < 2 ^ 64 ∧ a.times.2 < 2 ^ 64 := by
  have h1 := headerGet_lt h.toShaped.header_le .firstRequest
  have h2 := headerGet_lt h.toShaped.header_le .lastRequest
  rw [← h.times]
  exact ⟨rfl, rfl, h1, h2⟩

/-! ## Combining -/

/-- The header fields that combining updates. -/
theorem combineHeader_represents {regs : Counter → ℕ → ℕ} {filters : Set (ℕ × ℕ)}
    (hs : Represents p { a with regs := regs, filters := filters } s) (hos : Owned p s)
    (ht : Represents q b t) :
    Represents p { a.combine b with regs := regs, filters := filters } (combineHeader s t) ∧
      Owned p (combineHeader s t) := by
  obtain ⟨htf, htl, htf', htl'⟩ := ht.header_times
  obtain ⟨-, -, hsf', hsl'⟩ := hs.header_times
  obtain ⟨h₁, ho₁⟩ := hs.setField hos (f := .numberOfRequests) rfl
    (s.header .numberOfRequests + t.header .numberOfRequests)
  obtain ⟨h₂, ho₂⟩ := h₁.setField ho₁ (f := .periodBegin) rfl
    (min (HonasState.header _ .periodBegin) (t.header .periodBegin))
  obtain ⟨h₃, ho₃⟩ := h₂.setField ho₂ (f := .periodEnd) rfl
    (max (HonasState.header _ .periodEnd) (t.header .periodEnd))
  obtain ⟨h₄, ho₄⟩ := h₃.setField ho₃ (f := .firstRequest) rfl
    (min (HonasState.header _ .firstRequest) (t.header .firstRequest))
  obtain ⟨h₅, ho₅⟩ := h₄.setField ho₄ (f := .lastRequest) rfl
    (max (HonasState.header _ .lastRequest) (t.header .lastRequest))
  refine ⟨h₅.congr (fun _ _ _ => Iff.rfl) rfl ?_ ?_, ho₅⟩
  · change (s.header .numberOfRequests + t.header .numberOfRequests) % 2 ^ 64 = _
    rw [hs.requests, ht.requests]
    exact (Nat.add_mod _ _ _).symm
  · have hf := h₃.header_times.1
    have hl := h₄.header_times.2.1
    refine Prod.ext ?_ ?_
    · change min (HonasState.header _ .firstRequest) (t.header .firstRequest) % 2 ^ 64 = _
      rw [hf, htf]
      exact Nat.mod_eq_of_lt (lt_of_le_of_lt (min_le_right _ _) htf')
    · change max (HonasState.header _ .lastRequest) (t.header .lastRequest) % 2 ^ 64 = _
      rw [hl, htl]
      exact Nat.mod_eq_of_lt (max_lt hsl' htl')

/-- The steps of combining states with compatible parameters. -/
theorem combine_of_steps (hpq : Compatible p q) (hs : Shaped p s) (ht : Shaped q t)
    {s₁ s₂ s₃ t₂ t₃ : HonasState} (he₁ : (List.range p.n).foldlM (combineFilter t) s = some s₁)
    (he₂ : mergeCount .client s₁ t = some (s₂, t₂))
    (he₃ : mergeCount .hostName s₂ t₂ = some (s₃, t₃)) :
    honasStateAggregateCombine s t = some (true, combineHeader s₃ t₃, t₃) := by
  have hconf : s.header .numberOfBitsPerFilter = t.header .numberOfBitsPerFilter ∧
      s.header .numberOfHashes = t.header .numberOfHashes ∧
      s.header .numberOfFilters = t.header .numberOfFilters := by
    rw [hs.config _ rfl, hs.config _ rfl, hs.config _ rfl, ht.config _ rfl, ht.config _ rfl,
      ht.config _ rfl]
    exact ⟨congrArg BitVec.toNat hpq.bits, hpq.hashes, hpq.filters⟩
  have hrange : s.header .numberOfFilters = p.n := hs.config .numberOfFilters rfl
  rw [honasStateAggregateCombine, if_pos hconf, hrange]
  simp only [Option.bind_eq_bind, he₁, he₂, he₃, Option.bind_some]

/-- **Combining is combining the tallies.** -/
theorem combine_represents (hpq : Compatible p q) (hs : Represents p a s) (hos : Owned p s)
    (ht : Represents q b t) (hot : Owned q t) :
    ∃ s' t', honasStateAggregateCombine s t = some (true, s', t') ∧
      Represents p (a.combine b) s' ∧ Owned p s' ∧ Represents q b t' ∧ Owned q t' := by
  obtain ⟨s₁, he₁, ho₁, h₁⟩ := combineFilters_spec hpq ht (List.range p.n)
    (fun f hf => List.mem_range.1 hf) hs hos
  obtain ⟨s₂, t₂, he₂, h₂, ho₂, ht₂, hot₂⟩ := mergeCount_represents h₁ ho₁ ht hot .client
  obtain ⟨s₃, t₃, he₃, h₃, ho₃, ht₃, hot₃⟩ := mergeCount_represents h₂ ho₂ ht₂ hot₂ .hostName
  obtain ⟨h₄, ho₄⟩ := combineHeader_represents h₃ ho₃ ht₃
  refine ⟨_, t₃, ?_, h₄.congr (fun f hf i => ?_) (funext fun c => ?_) rfl rfl, ho₄, ht₃, hot₃⟩
  · exact combine_of_steps hpq hs.toShaped ht.toShaped he₁ he₂ he₃
  · simp [Tally.combine, hf]
  · cases c <;> rfl

/-- States with different parameters are refused, and stay. -/
theorem combine_refused (hs : Shaped p s) (ht : Shaped q t) (h : ¬ Compatible p q) :
    honasStateAggregateCombine s t = some (false, s, t) := by
  rw [honasStateAggregateCombine, if_neg]
  rw [hs.config _ rfl, hs.config _ rfl, hs.config _ rfl, ht.config _ rfl, ht.config _ rfl,
    ht.config _ rfl]
  rintro ⟨h1, h2, h3⟩
  exact h ⟨h3, BitVec.eq_of_toNat_eq h1, h2⟩

end

end Honas

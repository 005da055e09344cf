/-
  Combining states that were loaded.

  A loaded state has its counters in the memory, in regions that overlap the filters.
  Combining still only adds bits: every step takes the bitwise or of one region of the
  two memories, and the regions of the two states are the same (`combine_loaded`).
-/
import Honas.StateCombine
import Honas.StateReload

namespace Honas

open Bits

/-- The positions of the bits of a region. -/
def Region.bits (r : Region) : Set ℕ := {x | 8 * r.off ≤ x ∧ x < 8 * (r.off + r.len)}

/-- The positions that combining merges. -/
def StateParams.mergedBits (p : StateParams) : Set ℕ :=
  {x | (∃ f < p.n, x ∈ (p.filterRegion f).bits) ∨ ∃ c, x ∈ (p.countRegion c).bits}

/-- The state `s'` is `s` with the bits that `t` has at some positions. -/
structure Merged (p : StateParams) (R : Set ℕ) (s t s' : HonasState) : Prop
    extends Shaped p s' where
  mapped : Mapped s'
  header : ∀ f, s'.header f = s.header f
  bits : ∀ x, bitAt s'.mmap x = true ↔ bitAt s.mmap x = true ∨ x ∈ R ∧ bitAt t.mmap x = true

section

variable {p q : StateParams} {s t s' s'' : HonasState} {R R' : Set ℕ}

theorem Merged.refl (hs : Shaped p s) (hm : Mapped s) : Merged p ∅ s t s :=
  ⟨hs, hm, fun _ => rfl, fun _ => ⟨.inl, fun h => h.resolve_right fun h => h.1⟩⟩

theorem Merged.trans (h : Merged p R s t s') (h' : Merged p R' s' t s'') :
    Merged p (R ∪ R') s t s'' := by
  refine ⟨h'.toShaped, h'.mapped, fun f => (h'.header f).trans (h.header f), fun x => ?_⟩
  rw [h'.bits, h.bits, or_assoc, ← or_and_right]
  rfl

/-- One region is merged. -/
theorem Merged.region (hs : Shaped p s) {counts : Counter → Hll} {m : List Byte} {r : Region}
    (hoff : sizeofHeader ≤ r.off) (hcounts : ∀ c, MappedCount (counts c))
    (hlen : m.length = s.mmap.length) (hbits : ∀ i, bitAt m i = (bitAt s.mmap i ||
      (decide (8 * r.off ≤ i ∧ i < 8 * (r.off + r.len)) && bitAt t.mmap i))) :
    Merged p r.bits s t { s with mmap := m, counts := counts } := by
  obtain ⟨hs', hh⟩ := hs.update counts hlen fun i hi => by
    rw [hbits, decide_eq_false (by omega), Bool.false_and, Bool.or_false]
  refine ⟨hs', hcounts, hh, fun x => ?_⟩
  rw [hbits, Bool.or_eq_true, Bool.and_eq_true, decide_eq_true_iff]
  rfl

/-- A filter is merged. -/
theorem combineFilter_loaded (hpq : Compatible p q) (ht : Shaped q t) (hs : Shaped p s)
    (hm : Mapped s) {f : ℕ} (hf : f < p.n) :
    ∃ s', combineFilter t s f = some s' ∧ Merged p (p.filterRegion f).bits s t s' := by
  obtain ⟨m, he, hlen, hbits⟩ := combineFilter_spec hpq ht hs hf
  have hfirst := p.header_le_first
  refine ⟨_, he, Merged.region (r := p.filterRegion f) hs ?_ hm hlen hbits⟩
  change sizeofHeader ≤ p.first + f * p.stride
  omega

theorem Compatible.countRegion (hpq : Compatible p q) (c : Counter) :
    p.countRegion c = q.countRegion c := by
  have hlen := hpq.len
  have hn := hpq.filters
  have hstride : p.stride = q.stride := by unfold StateParams.stride; rw [hlen]
  cases c <;> unfold StateParams.countRegion <;> rw [hn, hstride]

/-- A counter of which the registers are in the memory is merged there. -/
theorem mergeCount_loaded (hf : p.Fits) (hpq : Compatible p q) (hs : Shaped p s) (hm : Mapped s)
    (ht : Shaped q t) (hmt : Mapped t) (c : Counter) :
    ∃ s' t', mergeCount c s t = some (s', t') ∧ Merged p (p.countRegion c).bits s t s' ∧
      Shaped q t' ∧ Mapped t' ∧ t'.mmap = t.mmap := by
  have hupdate : ∀ {u : HonasState} {hll : Hll}, Mapped u → MappedCount hll →
      ∀ c', MappedCount (Function.update u.counts c hll c') := by
    intro u hll hu hhll c'
    rw [Function.update_apply]
    split_ifs
    exacts [hhll, hu c']
  obtain ⟨hend, -⟩ := countRegion_read hs c
  obtain ⟨hend', -⟩ := countRegion_read ht c
  rw [← hpq.countRegion c] at hend'
  have hsrc := count_mapped ht (hmt c)
  rw [← hpq.countRegion c] at hsrc
  set off := (p.countRegion c).off with hoff
  -- both counters are dense, so only the registers change
  have hmerge : hllMerge { s.counts c with registers := ⟨off, slice s.mmap off hllDenseSize⟩ }
      { t.counts c with registers := ⟨off, slice t.mmap off hllDenseSize⟩ } =
      some ({ s.counts c with
          registers := ⟨off, orBytes (slice s.mmap off hllDenseSize) (slice t.mmap off hllDenseSize)⟩
          card := -1 },
        { t.counts c with registers := ⟨off, slice t.mmap off hllDenseSize⟩ }) := by
    rw [hllMerge, hllSparseToDense, hllSparseToDense]
    simp only [(hm c).encoding, (hmt c).encoding, Option.bind_eq_bind, Option.bind_some, and_self,
      if_true, byteSliceBitwiseOr_eq]
  have he : mergeCount c s t = some (
      { s with
        mmap := splice s.mmap off
          (orBytes (slice s.mmap off hllDenseSize) (slice t.mmap off hllDenseSize))
        counts := Function.update s.counts c { s.counts c with registers := ⟨0, []⟩, card := -1 } },
      { t with
        counts := Function.update t.counts c { t.counts c with registers := ⟨0, []⟩ } }) := by
    rw [mergeCount, count_mapped hs (hm c), hsrc]
    simp only [Option.bind_eq_bind, Option.bind_some]
    rw [hmerge, Option.bind_some]
    dsimp only
    rw [setCount_mapped, setCount_mapped]
    · dsimp only
      rw [splice_slice hend']
    · exact (hmt c).notOwned
    · exact (hm c).notOwned
  have hfirst := p.header_le_first
  have hge := hf.countRegion_off_ge c
  obtain ⟨hlen, hbits⟩ := splice_orBytes (t := t.mmap) hend
  refine ⟨_, _, he, Merged.region (r := p.countRegion c) hs (by omega)
    (hupdate hm ⟨(hm c).notOwned, (hm c).encoding⟩) hlen ?_,
    (ht.update _ rfl fun _ _ => rfl).1, hupdate hmt ⟨(hmt c).notOwned, (hmt c).encoding⟩, rfl⟩
  rw [countRegion_len]
  exact hbits

/-- The header fields that combining updates. -/
theorem combineHeader_loaded (hs : Shaped p s) :
    Shaped p (combineHeader s t) ∧ (combineHeader s t).counts = s.counts ∧
      (combineHeader s t).header .numberOfRequests =
        (s.header .numberOfRequests + t.header .numberOfRequests) % 2 ^ 64 ∧
      ∀ x, 8 * sizeofHeader ≤ x → bitAt (combineHeader s t).mmap x = bitAt s.mmap x := by
  rw [combineHeader]
  set n := s.header .numberOfRequests + t.header .numberOfRequests
  have h₁ := hs.setHeader (f := .numberOfRequests) rfl n
  set s₁ := s.setHeader .numberOfRequests n
  have h₂ := h₁.setHeader (f := .periodBegin) rfl (min (s₁.header .periodBegin) (t.header .periodBegin))
  set s₂ := s₁.setHeader .periodBegin (min (s₁.header .periodBegin) (t.header .periodBegin))
  have h₃ := h₂.setHeader (f := .periodEnd) rfl (max (s₂.header .periodEnd) (t.header .periodEnd))
  set s₃ := s₂.setHeader .periodEnd (max (s₂.header .periodEnd) (t.header .periodEnd))
  have h₄ := h₃.setHeader (f := .firstRequest) rfl
    (min (s₃.header .firstRequest) (t.header .firstRequest))
  set s₄ := s₃.setHeader .firstRequest (min (s₃.header .firstRequest) (t.header .firstRequest))
  refine ⟨h₄.setHeader (f := .lastRequest) rfl _, rfl, ?_, fun x hx => ?_⟩
  · rw [header_setHeader h₄, if_neg (by decide), header_setHeader h₃, if_neg (by decide),
      header_setHeader h₂, if_neg (by decide), header_setHeader h₁, if_neg (by decide),
      header_setHeader hs, if_pos rfl]
    rfl
  · rw [bitAt_setHeader h₄ _ _ hx, bitAt_setHeader h₃ _ _ hx, bitAt_setHeader h₂ _ _ hx,
      bitAt_setHeader h₁ _ _ hx, bitAt_setHeader hs _ _ hx]

/-- **Combining two loaded states** adds their requests, and merges the filters and
    the registers. -/
theorem combine_loaded (hf : p.Fits) (hpq : Compatible p q) (hs : Shaped p s) (hm : Mapped s)
    (ht : Shaped q t) (hmt : Mapped t) :
    ∃ s' t', honasStateAggregateCombine s t = some (true, s', t') ∧ Shaped p s' ∧ Mapped s' ∧
      s'.header .numberOfRequests =
        (s.header .numberOfRequests + t.header .numberOfRequests) % 2 ^ 64 ∧
      ∀ x, 8 * sizeofHeader ≤ x → (bitAt s'.mmap x = true ↔
        bitAt s.mmap x = true ∨ x ∈ p.mergedBits ∧ bitAt t.mmap x = true) := by
  obtain ⟨s₁, he₁, h₁⟩ := Run.exists_run_of_forall
    (R := fun fs s' => Merged p {x | ∃ f ∈ fs, x ∈ (p.filterRegion f).bits} s t s')
    (C := fun f => f < p.n) (h := []) (s := s)
    (fun fs s' f h hf => by
      obtain ⟨s'', he, h'⟩ := combineFilter_loaded hpq ht h.toShaped h.mapped hf
      refine ⟨s'', he, ?_⟩
      convert h.trans h' using 1
      ext x
      simp [or_and_right, exists_or])
    (by simpa using Merged.refl hs hm) fun f (hf : f ∈ List.range p.n) => List.mem_range.1 hf
  obtain ⟨s₂, t₂, he₂, h₂, ht₂, hmt₂, hmem₂⟩ :=
    mergeCount_loaded hf hpq h₁.toShaped h₁.mapped ht hmt .client
  obtain ⟨s₃, t₃, he₃, h₃, ht₃, hmt₃, hmem₃⟩ :=
    mergeCount_loaded hf hpq h₂.toShaped h₂.mapped ht₂ hmt₂ .hostName
  obtain ⟨h₄, hcounts, hreq, hbits⟩ := combineHeader_loaded (t := t₃) h₃.toShaped
  have hsrc : ∀ f, t₃.header f = t.header f := fun f => by
    rw [HonasState.header, hmem₃, hmem₂, HonasState.header]
  refine ⟨_, t₃, ?_, h₄, fun c => by rw [hcounts]; exact h₃.mapped c, ?_, fun x hx => ?_⟩
  · exact combine_of_steps hpq hs ht he₁ he₂ he₃
  · rw [hreq, hsrc, h₃.header, h₂.header, h₁.header]
  · rw [hbits x hx, h₃.bits, hmem₂, h₂.bits, h₁.bits, or_assoc, ← or_and_right, or_assoc,
      ← or_and_right]
    have hregion : (∃ f ∈ [] ++ List.range p.n, x ∈ (p.filterRegion f).bits) ∨
        x ∈ (p.countRegion .client).bits ∨ x ∈ (p.countRegion .hostName).bits ↔
        x ∈ p.mergedBits := by
      simp only [StateParams.mergedBits, List.nil_append, List.mem_range, Set.mem_ofPred_eq]
      refine or_congr_right ⟨?_, ?_⟩
      · rintro (h | h)
        exacts [⟨_, h⟩, ⟨_, h⟩]
      · rintro ⟨c, h⟩
        cases c
        exacts [.inl h, .inr h]
    rw [← hregion]
    rfl

end

end Honas

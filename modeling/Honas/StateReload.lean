/-
  Persisting an open state, and loading it again.

  Persisting succeeds for every open state (`Active.persist`).  It keeps the header,
  apart from the two estimates, and the memory behind the header if the counters
  are there.
-/
import Honas.StateActive

namespace Honas

open Bits

/-- The estimates that are stored when a state is persisted. -/
def HeaderField.isEstimate (f : HeaderField) : Bool :=
  f = .estimatedNumberOfClients ∨ f = .estimatedNumberOfHostNames

/-- A step of persisting keeps the rest of the header. -/
structure KeepsHeader (p : StateParams) (s s' : HonasState) : Prop extends Shaped p s' where
  header : ∀ f : HeaderField, f.isEstimate = false → s'.header f = s.header f

section

variable {p : StateParams} {s s' s'' : HonasState}

theorem KeepsHeader.refl (h : Shaped p s) : KeepsHeader p s s := ⟨h, fun _ _ => rfl⟩

theorem KeepsHeader.trans (h : KeepsHeader p s s') (h' : KeepsHeader p s' s'') :
    KeepsHeader p s s'' :=
  ⟨h'.toShaped, fun f hf => (h'.header f hf).trans (h.header f hf)⟩

/-- Writing behind the header. -/
theorem KeepsHeader.splice (h : Shaped p s) (counts : Counter → Hll) {off : ℕ} {bytes : List Byte}
    (hoff : sizeofHeader ≤ off) (hend : off + bytes.length ≤ s.mmap.length) :
    KeepsHeader p s { s with mmap := splice s.mmap off bytes, counts := counts } := by
  have hhead : ∀ i, i < 8 * sizeofHeader → bitAt (Bits.splice s.mmap off bytes) i = bitAt s.mmap i := by
    intro i hi
    rw [bitAt_splice hend, if_neg (by omega)]
  obtain ⟨hs', hh⟩ := h.update counts (length_splice hend) hhead
  exact ⟨hs', fun f _ => hh f⟩

/-- Storing a counter whose registers are a region of the memory. -/
theorem KeepsHeader.setCount (hf : p.Fits) (h : Shaped p s) (c : Counter) {hll : Hll}
    (haddr : hll.registersOwned = false → hll.registers.addr = (p.countRegion c).off)
    (hlen : hll.registersOwned = false → hll.registers.bytes.length = hllDenseSize) :
    KeepsHeader p s (s.setCount c hll) := by
  by_cases ho : hll.registersOwned = true
  · rw [HonasState.setCount, if_pos ho]
    obtain ⟨hs', hh⟩ := h.update (Function.update s.counts c hll) rfl fun _ _ => rfl
    exact ⟨hs', fun f _ => hh f⟩
  · rw [Bool.not_eq_true] at ho
    have hoff := hf.countRegion_off_ge c
    have hfirst := p.header_le_first
    have hend := (countRegion_read h c).1
    rw [setCount_mapped ho, haddr ho]
    exact .splice h _ (by omega) (by rw [hlen ho]; exact hend)

theorem KeepsHeader.persistCount (hf : p.Fits) (h : Shaped p s) {c : Counter}
    (hs : s.persistCount c = some s') : KeepsHeader p s s' := by
  rw [HonasState.persistCount] at hs
  by_cases ho : (s.counts c).registersOwned = true
  · rw [if_pos ho] at hs
    obtain ⟨⟨dense, done⟩, -, hs⟩ := Option.bind_eq_some_iff.1 hs
    obtain ⟨registers, hread, hs⟩ := Option.bind_eq_some_iff.1 hs
    obtain ⟨both, hor, hs⟩ := Option.bind_eq_some_iff.1 hs
    obtain ⟨hll, hinit, hs⟩ := Option.bind_eq_some_iff.1 hs
    obtain rfl := Option.some.inj hs
    -- the registers are those of the region, with bits added
    rw [(countRegion_read h c).2] at hread
    obtain rfl := Option.some.inj hread
    rw [byteSliceBitwiseOr, byteSliceBitwise] at hor
    rw [hllInitFromBuffer] at hinit
    split_ifs at hor hinit with haligned hlen
    obtain rfl := Option.some.inj hinit
    obtain rfl := Option.some.inj hor
    exact .setCount hf h c (fun _ => rfl) fun _ => hlen
  · rw [if_neg ho] at hs
    obtain rfl := Option.some.inj hs
    exact .refl h

theorem hllCount_registers (estimate : ℚ → ℕ → BitVec 64) (hll : Hll) :
    (hllCount estimate hll).1.registersOwned = hll.registersOwned ∧
      (hllCount estimate hll).1.registers = hll.registers := by
  unfold hllCount
  split_ifs
  · exact ⟨rfl, rfl⟩
  · exact ⟨rfl, rfl⟩

theorem KeepsHeader.estimateCount (hf : p.Fits) (estimate : ℚ → ℕ → BitVec 64) (h : Shaped p s)
    {c : Counter} {field : HeaderField} (hfield : field.isEstimate = true)
    (hconf : field.isConfig = false) (hs : s.estimateCount estimate c field = some s') :
    KeepsHeader p s s' := by
  rw [HonasState.estimateCount] at hs
  obtain ⟨hll, hcount, hs⟩ := Option.bind_eq_some_iff.1 hs
  obtain ⟨howned, hregs⟩ := hllCount_registers estimate hll
  rcases hest : hllCount estimate hll with ⟨hll', n⟩
  rw [hest] at hs howned hregs
  obtain rfl := Option.some.inj hs
  -- registers that are not owned are those of the region
  have hregion : hll.registersOwned = false → hll.registers.addr = (p.countRegion c).off ∧
      hll.registers.bytes.length = hllDenseSize := by
    intro hno
    rw [HonasState.count] at hcount
    split_ifs at hcount with ho
    · obtain rfl := Option.some.inj hcount
      rw [hno] at ho
      cases ho
    · rw [(countRegion_read h c).2] at hcount
      obtain rfl := Option.some.inj hcount
      exact ⟨rfl, length_slice (countRegion_read h c).1⟩
  dsimp only at howned hregs
  have hset : KeepsHeader p s (s.setCount c hll') := by
    refine .setCount hf h c ?_ ?_ <;> rw [howned, hregs]
    exacts [fun hno => (hregion hno).1, fun hno => (hregion hno).2]
  refine ⟨hset.toShaped.setHeader hconf _, fun f hfe => ?_⟩
  have hne : f ≠ field := by
    rintro rfl
    rw [hfield] at hfe
    cases hfe
  rw [header_setHeader hset.toShaped, if_neg hne]
  exact hset.header f hfe

theorem KeepsHeader.countFilterBits (h : Shaped p s) {i : ℕ}
    (hs : s.countFilterBits i = some s') : KeepsHeader p s s' := by
  rw [HonasState.countFilterBits] at hs
  obtain ⟨region, hregion, hs⟩ := Option.bind_eq_some_iff.1 hs
  obtain ⟨filter, -, hs⟩ := Option.bind_eq_some_iff.1 hs
  obtain rfl := Option.some.inj hs
  have hi : i < p.n := by
    have := (List.getElem?_eq_some_iff.1 hregion).1
    rwa [h.filters, List.length_map, List.length_range] at this
  have hfirst := p.header_le_first
  have hsize := p.first_le_size
  have hl := h.length
  exact .splice h s.counts (by rw [h.filterBitsSet]; omega) (by
    rw [length_toLE, h.filterBitsSet]; omega)

/-- **Persisting keeps the header**, apart from the estimates. -/
theorem KeepsHeader.persist (hf : p.Fits) {estimate : ℚ → ℕ → BitVec 64} (h : Shaped p s)
    {file : List Byte} (hs : honasStatePersist estimate s = some (s', file)) : KeepsHeader p s s' := by
  rw [honasStatePersist] at hs
  obtain ⟨s₁, h₁, hs⟩ := Option.bind_eq_some_iff.1 hs
  obtain ⟨s₂, h₂, hs⟩ := Option.bind_eq_some_iff.1 hs
  obtain ⟨s₃, h₃, hs⟩ := Option.bind_eq_some_iff.1 hs
  obtain ⟨s₄, h₄, hs⟩ := Option.bind_eq_some_iff.1 hs
  obtain ⟨s₅, h₅, hs⟩ := Option.bind_eq_some_iff.1 hs
  obtain ⟨rfl, rfl⟩ := Prod.mk.inj (Option.some.inj hs)
  have k₁ := persistCount hf h h₁
  have k₂ := estimateCount hf estimate k₁.toShaped rfl rfl h₂
  have k₃ := persistCount hf k₂.toShaped h₃
  have k₄ := estimateCount hf estimate k₃.toShaped rfl rfl h₄
  have k₅ : KeepsHeader p s₄ s₅ := Run.inv_of_run (C := fun _ => True)
    (fun _ _ _ k _ hstep => k.trans (countFilterBits k.toShaped hstep)) (.refl k₄.toShaped)
    (fun _ _ => trivial) h₅
  exact (k₁.trans k₂).trans ((k₃.trans k₄).trans k₅)

/-! ## Every open state can be persisted -/

/-- Persisting starts with the counters that are in the memory. -/
theorem Active.persisting (h : Active p s) : ∃ a : Tally, (∀ c, MappedCount (s.counts c) →
    ∀ r, a.regs c r = 0) ∧ Persisting p a s.mmap (fun c => MappedCount (s.counts c)) s := by
  have hregs : ∀ c, ∃ regs : ℕ → ℕ, (¬MappedCount (s.counts c) →
      OwnedCount (s.counts c) ∧ HasRegs (s.counts c) regs) ∧
      (MappedCount (s.counts c) → ∀ r, regs r = 0) := by
    intro c
    rcases h.counts c with ⟨ho, regs, hr⟩ | hm
    · refine ⟨regs, fun _ => ⟨ho, hr⟩, fun hm => ?_⟩
      have := hm.notOwned
      rw [ho.owned] at this
      cases this
    · exact ⟨fun _ => 0, fun hno => absurd hm hno, fun _ _ => rfl⟩
  choose regs howned hzero using hregs
  refine ⟨⟨∅, regs, s.header .numberOfRequests, s.times⟩, fun c hm => hzero c hm, h.toShaped,
    fun c hm => hm, fun c hno => howned c hno, fun x _ => ?_, ?_, rfl⟩
  · refine ⟨.inl, fun hx => hx.resolve_right ?_⟩
    rintro ⟨c, hm, i, -, -, hset⟩
    have hzero' : (regs c (i / 6)).testBit (i % 6) = true := hset
    rw [hzero c hm, Nat.zero_testBit] at hzero'
    cases hzero'
  · have := headerGet_lt h.toShaped.header_le .numberOfRequests
    exact (Nat.mod_eq_of_lt this).symm

/-- Moving a counter to the memory, unless it is there. -/
theorem Persisting.persistCount_either (hf : p.Fits) {a : Tally} {m : List Byte}
    {done : Counter → Prop} (h : Persisting p a m done s) (c : Counter) :
    ∃ s', s.persistCount c = some s' ∧ Persisting p a m (fun c' => done c' ∨ c' = c) s' := by
  by_cases hc : done c
  · have hdone : (fun c' => done c' ∨ c' = c) = done := by
      funext c'
      exact propext ⟨fun h => h.elim id fun heq => heq ▸ hc, .inl⟩
    rw [hdone, HonasState.persistCount, if_neg (by rw [(h.mapped c hc).notOwned]; exact Bool.false_ne_true)]
    exact ⟨s, rfl, h⟩
  · exact h.persistCount hf hc

/-- Persisting an open state puts the registers of the counters that are on the heap on top
    of the memory. -/
theorem Active.persist_bits (estimate : ℚ → ℕ → BitVec 64) (hok : p.Ok) (h : Active p s) :
    ∃ (a : Tally) (s' : HonasState), (∀ c, MappedCount (s.counts c) → ∀ r, a.regs c r = 0) ∧
      honasStatePersist estimate s = some (s', s'.mmap) ∧ Mapped s' ∧ KeepsHeader p s s' ∧
      ∀ x, 8 * p.first ≤ x → (bitAt s'.mmap x = true ↔
        bitAt s.mmap x = true ∨ a.IsSetAt p (fun _ => True) x) := by
  obtain ⟨a, hzero, h₀⟩ := h.persisting
  obtain ⟨s₁, he₁, h₁⟩ := h₀.persistCount_either hok.toFits .client
  obtain ⟨s₂, he₂, h₂⟩ := h₁.estimateCount estimate (c := .client) (.inr rfl)
    .estimatedNumberOfClients rfl (by decide)
  obtain ⟨s₃, he₃, h₃⟩ := h₂.persistCount_either hok.toFits .hostName
  obtain ⟨s₄, he₄, h₄⟩ := h₃.estimateCount estimate (c := .hostName) (.inr rfl)
    .estimatedNumberOfHostNames rfl (by decide)
  have hall : (fun c => (MappedCount (s.counts c) ∨ c = .client) ∨ c = .hostName) =
      fun _ => True := by
    funext c
    cases c <;> simp
  rw [hall] at h₄
  obtain ⟨s₅, he₅, h₅⟩ := Run.exists_run_of_forall
    (R := fun _ => Persisting p a s.mmap fun _ => True)
    (C := fun i => i < p.n) (fun _ _ _ hs hi => hs.countFilterBits hi) (h := []) h₄
    fun i (hi : i ∈ List.range p.n) => List.mem_range.1 hi
  have hpersist : honasStatePersist estimate s = some (s₅, s₅.mmap) :=
    persist_of_steps he₁ he₂ he₃ he₄ (h₄.config .numberOfFilters rfl) he₅
  exact ⟨a, s₅, hzero, hpersist, fun c => h₅.mapped c trivial, .persist hok.toFits h.toShaped hpersist,
    h₅.bits⟩

/-- **Persisting an open state** succeeds.  It keeps the header, apart from the
    estimates; if the counters are in the memory, it keeps what is behind the counts
    of the bits set. -/
theorem Active.persist (estimate : ℚ → ℕ → BitVec 64) (hok : p.Ok) (h : Active p s) :
    ∃ s', honasStatePersist estimate s = some (s', s'.mmap) ∧ Mapped s' ∧ KeepsHeader p s s' ∧
      (Mapped s → ∀ x, 8 * p.first ≤ x → bitAt s'.mmap x = bitAt s.mmap x) := by
  obtain ⟨a, s', hzero, hpersist, hmapped, hkeeps, hbits⟩ := h.persist_bits estimate hok
  refine ⟨s', hpersist, hmapped, hkeeps, fun hm x hx => ?_⟩
  rw [Bool.eq_iff_iff, hbits x hx]
  refine ⟨fun hbit => hbit.resolve_right ?_, .inl⟩
  rintro ⟨c, -, i, -, -, hset⟩
  have hzero' : (a.regs c (i / 6)).testBit (i % 6) = true := hset
  rw [hzero c (hm c), Nat.zero_testBit] at hzero'
  cases hzero'

/-- **Reloading**: a persisted state can be loaded, and it is the same. -/
theorem Active.reload (estimate : ℚ → ℕ → BitVec 64) (hok : p.Ok) (h : Active p s) :
    ∃ s' loaded, honasStatePersist estimate s = some (s', s'.mmap) ∧
      honasStateLoad (some s'.mmap) = some (.ok loaded) ∧ Active p loaded ∧
      ∀ f : HeaderField, f.isEstimate = false → loaded.header f = s.header f := by
  obtain ⟨s', hp, -, hk, -⟩ := h.persist estimate hok
  obtain ⟨loaded, hl, hmm, hshape, hmap⟩ := load_spec hok hk.length hk.config
  refine ⟨s', loaded, hp, hl, .of_mapped hshape hmap, fun f hf => ?_⟩
  rw [HonasState.header, hmm]
  exact hk.header f hf

end

end Honas

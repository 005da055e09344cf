/-
  Persisting and loading (`honas_state_persist`, `honas_state_load`).

  Persisting makes the registers of the counters dense and takes their bitwise
  or with the memory (`persist_spec`); a loaded state has its counters in the
  memory (`load_spec`).  The registers overlap the filters, so the loaded state
  stands for the same tally exactly if the tally is mirrored: the filter bits
  and the register bits that share a position are equal (`restart_agrees_iff`).
  As long as it stays mirrored, a restart does not show (`restart`).
-/
import Honas.StateCheck

namespace Honas

open Bits MaxSketch

/-! ## Loading -/

theorem StateParams.countRegion_aligned (p : StateParams) (c : Counter) :
    (p.countRegion c).off % sizeofSizeT = 0 := by
  have h : 4096 ∣ p.n * p.stride := (Dvd.intro_left _ rfl : 4096 ∣ p.stride).mul_left p.n
  have h8 := Nat.mod_eq_zero_of_dvd (Dvd.dvd.trans (by decide : 8 ∣ 4096) h)
  cases c <;> simp only [countRegion, sizeofSizeT] <;> omega

theorem countRegion_len (p : StateParams) (c : Counter) : (p.countRegion c).len = hllDenseSize := by
  cases c <;> rfl

theorem countRegion_read {p : StateParams} {s : HonasState} (hs : Shaped p s) (c : Counter) :
    (p.countRegion c).off + hllDenseSize ≤ s.mmap.length ∧
      readRegion s.mmap (s.countRegisters c) =
        some ⟨(p.countRegion c).off, slice s.mmap (p.countRegion c).off hllDenseSize⟩ := by
  have hend := p.countRegion_end c
  rw [countRegion_len] at hend
  rw [hs.length, hs.countRegisters,
    readRegion_eq (by rw [hs.length, countRegion_len]; exact hend), countRegion_len]
  exact ⟨hend, rfl⟩

theorem splice_slice {m : List Byte} {off n : ℕ} (h : off + n ≤ m.length) :
    splice m off (slice m off n) = m := by
  have hl := length_slice h
  refine ext_bits (length_splice (by omega)) fun i _ => ?_
  rw [bitAt_splice (by omega), hl]
  split_ifs with hin
  · rw [bitAt_slice, decide_eq_true (by omega), Bool.true_and]
    congr 1; omega
  · rfl

/-- Storing a counter in the memory. -/
theorem setCount_mapped {s : HonasState} {c : Counter} {hll : Hll} (h : hll.registersOwned = false) :
    s.setCount c hll = { s with
      mmap := splice s.mmap hll.registers.addr hll.registers.bytes
      counts := Function.update s.counts c { hll with registers := ⟨0, []⟩ } } := by
  rw [HonasState.setCount, if_neg (by simp [h])]
  rfl

/-- Setting up a counter from a buffer. -/
theorem hllInitFromBuffer_spec (registers : ByteSlice) (h : registers.len = hllDenseSize) :
    ∃ hll, hllInitFromBuffer registers = some hll ∧ MappedCount hll ∧ hll.registers = registers := by
  rw [hllInitFromBuffer, if_pos h]
  exact ⟨_, rfl, ⟨rfl, rfl⟩, rfl⟩

/-- **Loading** memory with such a header. -/
theorem load_spec {p : StateParams} (hok : p.Ok) {m : List Byte} (hl : m.length = p.size)
    (hc : ∀ f : HeaderField, f.isConfig → headerGet m f = p.config f) :
    ∃ s, honasStateLoad (some m) = some (.ok s) ∧ s.mmap = m ∧ Shaped p s ∧ Mapped s := by
  have hfits := hok.toFits
  have hsize := p.sizeofHeader_le
  have hfirst := p.header_le_first
  have hhd : sizeofHeader = 108 := rfl
  have hinit := honasStateInitCommon_eq hfits hl hc fun _ => hllInit
  have hnr := numberOfCombinations_eq hok.perUser_le hfits.n_lt
  rw [hnr, Option.map_some] at hinit
  -- setting up one counter stores the bytes that were read
  have hcount : ∀ {s : HonasState} (c : Counter), Shaped p s → s.mmap = m →
      ∃ hll, ((readRegion s.mmap (s.countRegisters c)).bind fun registers =>
          (hllInitFromBuffer registers).bind fun hll => some (s.setCount c hll)) =
        some { s with counts := Function.update s.counts c hll } ∧ MappedCount hll := by
    intro s c hs hm
    obtain ⟨hend, hread⟩ := countRegion_read hs c
    have hlen := length_slice hend
    obtain ⟨hll, hi, hmap, hreg⟩ := hllInitFromBuffer_spec
      ⟨(p.countRegion c).off, slice s.mmap (p.countRegion c).off hllDenseSize⟩ hlen
    refine ⟨{ hll with registers := ⟨0, []⟩ }, ?_, ⟨hmap.notOwned, hmap.encoding⟩⟩
    rw [hread, Option.bind_some, hi, Option.bind_some, setCount_mapped hmap.notOwned, hreg,
      splice_slice hend]
  set s₀ : HonasState :=
    { mmap := m, filters := (List.range p.n).map p.filterRegion
      nrFiltersPerUserCombinations := p.n.choose p.perUser % 2 ^ 32
      countRegisters := p.countRegion, filterBitsSet := sizeofHeader, counts := fun _ => hllInit }
  have hs₀ : Shaped p s₀ := ⟨hl, hc, rfl, fun _ => rfl, hnr, rfl⟩
  obtain ⟨client, he₁, hm₁⟩ := hcount .client hs₀ rfl
  have hs₁ := (hs₀.update (Function.update s₀.counts .client client) rfl fun _ _ => rfl).1
  obtain ⟨hostName, he₂, hm₂⟩ := hcount .hostName hs₁ rfl
  have hs₂ := (hs₁.update (Function.update (Function.update s₀.counts .client client) .hostName
    hostName) rfl fun _ _ => rfl).1
  refine ⟨_, ?_, rfl, hs₂, fun c => ?_⟩
  · have hbad : ¬ (m.length < 44 ∨ headerGet m .fileMagic ≠ honasStateFileMagic ∨
        headerGet m .majorVersion ≠ currentHonasStateMajorVersion) := by
      rw [hc .fileMagic rfl, hc .majorVersion rfl]
      simp only [StateParams.config, ne_eq, not_true_eq_false, or_false]
      omega
    have hbad' : ¬ (headerGet m .firstFilterOffset < sizeofHeader ∨
        headerGet m .numberOfFilters = 0 ∨ headerGet m .numberOfBitsPerFilter = 0 ∨
        headerGet m .numberOfBitsPerFilter % 8 ≠ 0 ∨ headerGet m .numberOfHashes = 0 ∨
        headerGet m .clientHllSize ≠ hllDenseSize ∨
        headerGet m .hostNameHllSize ≠ hllDenseSize) := by
      have h1 := hok.filters
      have h2 := hok.bits
      have h3 := hok.bits8
      have h4 := hok.hashes
      rw [hc .firstFilterOffset rfl, hc .numberOfFilters rfl, hc .numberOfBitsPerFilter rfl,
        hc .numberOfHashes rfl, hc .clientHllSize rfl, hc .hostNameHllSize rfl]
      simp only [StateParams.config, ne_eq, not_true_eq_false, or_false]
      omega
    cases m with
    | nil => simp at hl; omega
    | cons b bs =>
      rw [honasStateLoad.eq_def]
      simp only [if_neg hbad, if_neg hbad', headerFileSize_spec hfits hc, Option.bind_eq_bind,
        Option.bind_some, hinit]
      rw [if_neg (by omega), he₁, Option.bind_some, he₂]
      rfl
  · cases c
    · simpa using hm₁
    · simpa using hm₂

/-! ## Persisting -/

/-- A position where a register bit of some counter is set. -/
def Tally.IsSetAt (p : StateParams) (a : Tally) (done : Counter → Prop) (x : ℕ) : Prop :=
  ∃ c, done c ∧ ∃ i < 6 * hllRegisters, x = p.countPos c i ∧ packedBit (a.regs c) i = true

/-- A state while it is persisted: some counters are in the memory, on top of
    what was there. -/
structure Persisting (p : StateParams) (a : Tally) (m : List Byte) (done : Counter → Prop)
    (s : HonasState) : Prop extends Shaped p s where
  mapped : ∀ c, done c → MappedCount (s.counts c)
  owned : ∀ c, ¬ done c → OwnedCount (s.counts c) ∧ HasRegs (s.counts c) (a.regs c)
  bits : ∀ x, 8 * p.first ≤ x →
    (bitAt s.mmap x = true ↔ bitAt m x = true ∨ a.IsSetAt p done x)
  requests : s.header .numberOfRequests = a.requests % 2 ^ 64
  times : s.times = a.times

section Persist

variable {p : StateParams} {a : Tally} {m : List Byte} {done : Counter → Prop} {s : HonasState}

/-- The bits of the memory after packed registers have been combined into the place of
    a counter. -/
theorem bitAt_splice_registers {c : Counter} {mem dense : List Byte} {regs : ℕ → ℕ}
    (hend : (p.countRegion c).off + hllDenseSize ≤ mem.length)
    (hregs : ∀ i < 6 * hllRegisters, bitAt dense i = packedBit regs i)
    (htail : ∀ i, 6 * hllRegisters ≤ i → bitAt dense i = false) (x : ℕ) :
    bitAt (splice mem (p.countRegion c).off
        (orBytes (slice mem (p.countRegion c).off hllDenseSize) dense)) x = true ↔
      bitAt mem x = true ∨
        ∃ i < 6 * hllRegisters, x = p.countPos c i ∧ packedBit regs i = true := by
  have hsize : hllDenseSize = 12289 := by decide
  have hsl := length_slice hend
  have hlen := (length_orBytes (slice mem (p.countRegion c).off hllDenseSize) dense).trans hsl
  rw [bitAt_splice (by rw [hlen]; exact hend), hlen]
  unfold StateParams.countPos
  by_cases hin : 8 * (p.countRegion c).off ≤ x ∧ x < 8 * ((p.countRegion c).off + hllDenseSize)
  · rw [if_pos hin, bitAt_orBytes, hsl, bitAt_slice,
      decide_eq_true (show x - 8 * (p.countRegion c).off < 8 * hllDenseSize by omega),
      Bool.true_and, Bool.true_and, Bool.or_eq_true,
      show 8 * (p.countRegion c).off + (x - 8 * (p.countRegion c).off) = x by omega]
    refine or_congr_right ?_
    constructor
    · intro hx
      have hlt : x - 8 * (p.countRegion c).off < 6 * hllRegisters := by
        by_contra hge
        rw [htail _ (not_lt.1 hge)] at hx
        exact Bool.false_ne_true hx
      exact ⟨_, hlt, by omega, by rw [← hregs _ hlt]; exact hx⟩
    · rintro ⟨i, hlt, rfl, hx⟩
      rw [Nat.add_sub_cancel_left, hregs i hlt]
      exact hx
  · rw [if_neg hin]
    refine ⟨.inl, fun hx => hx.resolve_right ?_⟩
    rintro ⟨i, hlt, rfl, -⟩
    rw [show hllRegisters = 16384 by rfl] at hlt
    omega

/-- **Moving a counter to the memory.** -/
theorem Persisting.persistCount (hf : p.Fits) (h : Persisting p a m done s) {c : Counter}
    (hc : ¬ done c) :
    ∃ s', s.persistCount c = some s' ∧ Persisting p a m (fun c' => done c' ∨ c' = c) s' := by
  obtain ⟨ho, hr⟩ := h.owned c hc
  obtain ⟨hend, hread⟩ := countRegion_read h.toShaped c
  have hoff : p.first ≤ (p.countRegion c).off := hf.countRegion_off_ge c
  have hsl := length_slice hend
  obtain ⟨d, hd, hde, hdr, hst⟩ := hllSparseToDense_regs hr
  obtain ⟨-, hdregs⟩ := (HasRegs.dense hde).1 hdr
  have hdbits := (forall_register_iff fun r hlt => hr.lt hlt).1 hdregs
  have hdtail := hst.tail ho.tail hde
  set sl := slice s.mmap (p.countRegion c).off hllDenseSize with hsldef
  have hor := byteSliceBitwiseOr_eq (t := ⟨(p.countRegion c).off, sl⟩) (o := d.registers)
    (by rw [hst.aligned ho.aligned]; exact p.countRegion_aligned c)
  have horlen : (orBytes sl d.registers.bytes).length = hllDenseSize :=
    (length_orBytes _ _).trans hsl
  obtain ⟨hll, hi, hmap, hreg⟩ := hllInitFromBuffer_spec
    ⟨(p.countRegion c).off, orBytes sl d.registers.bytes⟩ horlen
  have hspl : (p.countRegion c).off + (orBytes sl d.registers.bytes).length ≤ s.mmap.length := by
    rw [horlen]; exact hend
  have hbit := bitAt_splice_registers hend hdbits fun i h6 => hdtail i (by omega)
  rw [← hsldef] at hbit
  have hhead : ∀ i, i < 8 * sizeofHeader →
      bitAt (splice s.mmap (p.countRegion c).off (orBytes sl d.registers.bytes)) i =
        bitAt s.mmap i := by
    intro i hi
    have := p.header_le_first
    rw [bitAt_splice hspl, if_neg (by omega)]
  obtain ⟨hs', hh⟩ := h.toShaped.update
    (Function.update s.counts c { hll with registers := ⟨0, []⟩ }) (length_splice hspl) hhead
  refine ⟨_, ?_, ⟨hs', fun c' hc' => ?_, fun c' hc' => ?_, fun x hx => ?_, (hh _).trans h.requests,
    (Prod.ext (hh _) (hh _)).trans h.times⟩⟩
  · rw [HonasState.persistCount, if_pos ho.owned, hd]
    simp only [Option.bind_eq_bind, Option.bind_some, hread, hor, hi]
    rw [setCount_mapped hmap.notOwned, hreg]
  · by_cases hcc : c' = c
    · subst hcc
      simpa using (⟨hmap.notOwned, hmap.encoding⟩ : MappedCount { hll with registers := ⟨0, []⟩ })
    · simpa [hcc] using h.mapped c' (hc'.resolve_right hcc)
  · rw [not_or] at hc'
    simpa [hc'.2] using h.owned c' hc'.1
  · change bitAt (splice _ _ _) x = true ↔ _
    rw [hbit, h.bits x hx, or_assoc]
    refine or_congr_right ?_
    simp only [Tally.IsSetAt, or_and_right, exists_or, exists_eq_left]

/-- Storing an estimate. -/
theorem Persisting.estimateCount (estimate : ℚ → ℕ → BitVec 64) (h : Persisting p a m done s)
    {c : Counter} (hc : done c) (field : HeaderField) (hfield : field.isConfig = false)
    (hne : ∀ f ∈ [HeaderField.numberOfRequests, .firstRequest, .lastRequest], f ≠ field) :
    ∃ s', s.estimateCount estimate c field = some s' ∧ Persisting p a m done s' := by
  obtain ⟨hend, -⟩ := countRegion_read h.toShaped c
  have hm := h.mapped c hc
  obtain ⟨card, n, hcount⟩ : ∃ card n, hllCount estimate { s.counts c with
      registers := ⟨(p.countRegion c).off, slice s.mmap (p.countRegion c).off hllDenseSize⟩ } =
      ({ s.counts c with
        card := card
        registers := ⟨(p.countRegion c).off, slice s.mmap (p.countRegion c).off hllDenseSize⟩ }, n) := by
    unfold hllCount
    split_ifs
    exacts [⟨_, _, rfl⟩, ⟨_, _, rfl⟩]
  set hll : Hll := { s.counts c with card := card, registers := ⟨0, []⟩ }
  have hs₁ := (h.toShaped.update (Function.update s.counts c hll) rfl fun _ _ => rfl).1
  have hh := header_setHeader hs₁ field
  have hother : ∀ f ∈ [HeaderField.numberOfRequests, .firstRequest, .lastRequest], ∀ v,
      (({ s with counts := Function.update s.counts c hll } : HonasState).setHeader field v).header f =
        s.header f := fun f hf v => by
    rw [hh, if_neg (hne f hf)]; rfl
  refine ⟨({ s with counts := Function.update s.counts c hll } : HonasState).setHeader field n.toNat,
    ?_, ⟨hs₁.setHeader hfield _, fun c' hc' => ?_, fun c' hc' => ?_, fun x hx => ?_,
    (hother _ (by simp) _).trans h.requests,
    (Prod.ext (hother _ (by simp) _) (hother _ (by simp) _)).trans h.times⟩⟩
  · rw [HonasState.estimateCount, count_mapped h.toShaped hm]
    simp only [Option.bind_eq_bind, Option.bind_some, hcount]
    rw [setCount_mapped (by exact hm.notOwned), splice_slice hend]
  · change MappedCount (Function.update s.counts c hll c')
    by_cases hcc : c' = c
    · subst hcc
      rw [Function.update_self]
      exact ⟨hm.notOwned, hm.encoding⟩
    · rw [Function.update_of_ne hcc]; exact h.mapped c' hc'
  · change OwnedCount (Function.update s.counts c hll c') ∧
      HasRegs (Function.update s.counts c hll c') _
    have hcc : c' ≠ c := fun heq => hc' (heq ▸ hc)
    rw [Function.update_of_ne hcc]
    exact h.owned c' hc'
  · have := p.header_le_first
    rw [bitAt_setHeader hs₁ _ _ (by omega)]
    exact h.bits x hx

/-- Counting the bits of a filter. -/
theorem Persisting.countFilterBits (h : Persisting p a m done s) {i : ℕ} (hi : i < p.n) :
    ∃ s', s.countFilterBits i = some s' ∧ Persisting p a m done s' := by
  obtain ⟨hreg, hread, hlen⟩ := h.toShaped.filter hi
  have hfirst := p.header_le_first
  have hsize := p.first_le_size
  have hl := h.length
  have hspl : ∀ n, s.filterBitsSet + 4 * i + (toLE 4 n).length ≤ s.mmap.length := fun n => by
    rw [length_toLE, h.filterBitsSet]; omega
  have hbit : ∀ n x, x < 8 * sizeofHeader ∨ 8 * p.first ≤ x →
      bitAt (splice s.mmap (s.filterBitsSet + 4 * i) (toLE 4 n)) x = bitAt s.mmap x := by
    intro n x hx
    rw [bitAt_splice (hspl n), if_neg]
    rw [length_toLE, h.filterBitsSet]; omega
  have hkeep : ∀ n, Persisting p a m done
      { s with mmap := splice s.mmap (s.filterBitsSet + 4 * i) (toLE 4 n) } := by
    intro n
    obtain ⟨hs', hh⟩ := h.toShaped.update s.counts (length_splice (hspl n))
      fun x hx => hbit n x (.inl hx)
    exact ⟨hs', h.mapped, h.owned, fun x hx => by
      rw [hbit n x (.inr hx)]; exact h.bits x hx, (hh _).trans h.requests,
      (Prod.ext (hh _) (hh _)).trans h.times⟩
  refine ⟨_, ?_, hkeep (bloomNrBitsSet
    ⟨p.first + i * p.stride, slice s.mmap (p.first + i * p.stride) p.len⟩)⟩
  rw [HonasState.countFilterBits, hreg]
  simp only [Option.bind_eq_bind, Option.bind_some, hread]

/-- The steps of persisting a state. -/
theorem persist_of_steps {estimate : ℚ → ℕ → BitVec 64} {s s₁ s₂ s₃ s₄ s₅ : HonasState} {n : ℕ}
    (he₁ : s.persistCount .client = some s₁)
    (he₂ : s₁.estimateCount estimate .client .estimatedNumberOfClients = some s₂)
    (he₃ : s₂.persistCount .hostName = some s₃)
    (he₄ : s₃.estimateCount estimate .hostName .estimatedNumberOfHostNames = some s₄)
    (hn : s₄.header .numberOfFilters = n)
    (he₅ : (List.range n).foldlM HonasState.countFilterBits s₄ = some s₅) :
    honasStatePersist estimate s = some (s₅, s₅.mmap) := by
  rw [honasStatePersist, he₁]
  simp only [Option.bind_eq_bind, Option.bind_some, he₂, he₃, he₄, hn]
  rw [he₅, Option.bind_some]

/-- **Persisting** writes both counters over the memory. -/
theorem persist_spec (estimate : ℚ → ℕ → BitVec 64) (hok : p.Ok) (h : Represents p a s)
    (ho : Owned p s) :
    ∃ s', honasStatePersist estimate s = some (s', s'.mmap) ∧
      Persisting p a s.mmap (fun _ => True) s' := by
  have h₀ : Persisting p a s.mmap (fun _ => False) s :=
    ⟨h.toShaped, fun c hc => hc.elim, fun c _ => ⟨ho.counts c, h.regs_of_owned ho c⟩,
      fun x _ => by simp [Tally.IsSetAt], h.requests, h.times⟩
  obtain ⟨s₁, he₁, h₁⟩ := h₀.persistCount hok.toFits (c := .client) id
  obtain ⟨s₂, he₂, h₂⟩ := h₁.estimateCount estimate (c := .client)
    (.inr rfl) .estimatedNumberOfClients rfl (by decide)
  obtain ⟨s₃, he₃, h₃⟩ := h₂.persistCount hok.toFits (c := .hostName) (by simp)
  obtain ⟨s₄, he₄, h₄⟩ := h₃.estimateCount estimate (c := .hostName)
    (.inr rfl) .estimatedNumberOfHostNames rfl (by decide)
  have hall : (fun c' : Counter => (False ∨ c' = .client) ∨ c' = .hostName) = fun _ => True := by
    funext c
    cases c <;> simp
  rw [hall] at h₄
  obtain ⟨s₅, he₅, h₅⟩ := Run.exists_run_of_forall (R := fun _ => Persisting p a s.mmap fun _ => True)
    (C := fun i => i < p.n) (fun _ _ _ hs hi => hs.countFilterBits hi) (h := []) h₄
    fun i (hi : i ∈ List.range p.n) => List.mem_range.1 hi
  exact ⟨s₅, persist_of_steps he₁ he₂ he₃ he₄ (h₄.config .numberOfFilters rfl) he₅, h₅⟩

end Persist

/-! ## Restarting -/

/-- A register of a counter. -/
def HonasState.register (s : HonasState) (c : Counter) (r : ℕ) : Option ℕ :=
  (s.count c).map fun hll => hll.register r

/-- Two states have the same filters, registers, number of requests and request
    times. -/
structure Agree (s t : HonasState) : Prop where
  filters : ∀ f, s.filter f = t.filter f
  registers : ∀ c, ∀ r < hllRegisters, s.register c r = t.register c r
  requests : s.header .numberOfRequests = t.header .numberOfRequests
  firstRequest : s.header .firstRequest = t.header .firstRequest
  lastRequest : s.header .lastRequest = t.header .lastRequest

section Restart

variable {p : StateParams} {a : Tally} {s t : HonasState}

theorem Represents.register (h : Represents p a s) (c : Counter) {r : ℕ} (hr : r < hllRegisters) :
    s.register c r = some (a.regs c r) := by
  obtain ⟨hll, hc, hregs⟩ := h.regs c
  rw [HonasState.register, hc, Option.map_some, hregs.register_eq hr]

/-- States that keep the same tally agree. -/
theorem Represents.agree (hs : Represents p a s) (ht : Represents p a t) : Agree s t := by
  have htimes := hs.times.trans ht.times.symm
  exact ⟨hs.filter_congr ht rfl rfl rfl, fun c r hr => by rw [hs.register c hr, ht.register c hr],
    hs.requests.trans ht.requests.symm, congrArg Prod.fst htimes, congrArg Prod.snd htimes⟩

/-- A loaded state has some registers. -/
theorem mapped_regs (hs : Shaped p s) (hm : Mapped s) (c : Counter) :
    ∃ hll regs, s.count c = some hll ∧ HasRegs hll regs := by
  have hend := (countRegion_read hs c).1
  exact ⟨_, _, count_mapped hs (hm c),
    (HasRegs.dense (by exact (hm c).encoding)).2 ⟨length_slice hend, fun r _ => rfl⟩⟩

/-- A state, after a restart: the memory is that of the persisted state. -/
structure Restarted (p : StateParams) (a : Tally) (s loaded : HonasState) : Prop
    extends Shaped p loaded where
  mapped : Mapped loaded
  bits : ∀ x, 8 * p.first ≤ x → (bitAt loaded.mmap x = true ↔
    bitAt s.mmap x = true ∨ a.IsSetAt p (fun _ => True) x)
  requests : loaded.header .numberOfRequests = a.requests % 2 ^ 64
  times : loaded.times = a.times

theorem restarted (estimate : ℚ → ℕ → BitVec 64) (hok : p.Ok) (h : Represents p a s)
    (ho : Owned p s) :
    ∃ s' file loaded, honasStatePersist estimate s = some (s', file) ∧
      honasStateLoad (some file) = some (.ok loaded) ∧ Restarted p a s loaded := by
  obtain ⟨s', hp, hs'⟩ := persist_spec estimate hok h ho
  obtain ⟨loaded, hl, hmm, hshape, hmap⟩ := load_spec hok hs'.length hs'.config
  have hheader : ∀ f, loaded.header f = s'.header f := fun f => by
    rw [HonasState.header, hmm]; rfl
  refine ⟨s', _, loaded, hp, hl, ⟨hshape, hmap, fun x hx => by rw [hmm]; exact hs'.bits x hx,
    (hheader _).trans hs'.requests, ?_⟩⟩
  exact (Prod.ext (hheader _) (hheader _)).trans hs'.times

variable {loaded : HonasState}

theorem StateParams.first_le_filterPos (p : StateParams) (f b : ℕ) : 8 * p.first ≤ p.filterPos f b := by
  unfold filterPos; omega

theorem StateParams.Fits.first_le_countPos (hf : p.Fits) (c : Counter) (i : ℕ) :
    8 * p.first ≤ p.countPos c i := by
  have := hf.countRegion_off_ge c
  unfold StateParams.countPos; omega

/-- A mirrored tally survives a restart. -/
theorem Restarted.represents (hf : p.Fits) (h : Represents p a s) (ho : Owned p s)
    (hl : Restarted p a s loaded) (hm : Mirrored p a) : Represents p a loaded := by
  have hsmall : ∀ c, ∀ r < hllRegisters, a.regs c r < 64 :=
    fun c r hr => (h.regs_of_owned ho c).lt hr
  refine ⟨hl.toShaped, fun f hfn b hb => ?_, fun c => ?_, hl.requests, hl.times⟩
  · rw [hl.bits _ (p.first_le_filterPos f b), h.bits f hfn b hb]
    refine ⟨?_, .inl⟩
    rintro (hmem | ⟨c, -, i, hi, heq, hset⟩)
    · exact hmem
    · exact (hm f hfn b hb c i hi heq).2 hset
  · refine (mappedCount_iff hl.toShaped (hl.mapped c) (hsmall c)).2 fun i hi => ?_
    rw [Bool.eq_iff_iff, hl.bits _ (hf.first_le_countPos c i)]
    constructor
    · rintro (hbit | ⟨c', -, j, hj, heq, hset⟩)
      · -- a set bit that the counters did not write is a filter bit
        by_cases hpos : p.IsFilterPos (p.countPos c i)
        · obtain ⟨f, hfn, b, hb, heq⟩ := hpos
          rw [heq, h.bits f hfn b hb] at hbit
          exact (hm f hfn b hb c i hi heq.symm).1 hbit
        · rw [ho.blank _ (hf.first_le_countPos c i) hpos] at hbit
          exact absurd hbit (by simp)
      · have hcc : c = c' := by
          by_contra hne
          exact StateParams.countPos_ne hne hi hj heq
        subst hcc
        unfold StateParams.countPos at heq
        rwa [show i = j by omega]
    · intro hset
      exact .inr ⟨c, trivial, i, hi, rfl, hset⟩

/-- **A restart alone** does not show exactly if the tally is mirrored. -/
theorem Restarted.agree_iff (hf : p.Fits) (h : Represents p a s) (ho : Owned p s)
    (hl : Restarted p a s loaded) : Agree loaded s ↔ Mirrored p a := by
  constructor
  · intro hagree f hfn b hb c i hi heq
    have hbit := hl.bits (p.filterPos f b) (p.first_le_filterPos f b)
    rw [h.bits f hfn b hb] at hbit
    have hfilter : bitAt loaded.mmap (p.filterPos f b) = true ↔ (f, b) ∈ a.filters := by
      rw [← filterBit_eq hl.toShaped hfn hb, ← h.bits f hfn b hb, ← filterBit_eq h.toShaped hfn hb,
        HonasState.filterBit, HonasState.filterBit, hagree.filters]
    have hreg : bitAt loaded.mmap (p.countPos c i) = packedBit (a.regs c) i := by
      obtain ⟨hll, regs, hc, hr⟩ := mapped_regs hl.toShaped hl.mapped c
      have hregs : ∀ r < hllRegisters, regs r = a.regs c r := fun r hlt => by
        have hag := hagree.registers c r hlt
        rw [h.register c hlt, HonasState.register, hc, Option.map_some, Option.some_inj,
          hr.register_eq hlt] at hag
        exact hag
      exact (mappedCount_iff hl.toShaped (hl.mapped c)
        fun r hlt => (h.regs_of_owned ho c).lt hlt).1 ⟨hll, hc, hr.congr hregs⟩ i hi
    rw [← hfilter, heq, hreg]
  · intro hm
    exact (hl.represents hf h ho hm).agree h

end Restart

/-- **Restarts.**  After any lookups `A`, the loaded state agrees with the one
    that was persisted exactly if their tally is mirrored; and if it is mirrored
    after every event of the further lookups `B` too, the loaded state agrees,
    after `B`, with the state on which all lookups were registered. -/
theorem restart {p : StateParams} (hok : p.Ok) (sha256 : List Byte → Digest)
    (estimate : ℚ → ℕ → BitVec 64) (A B : List ValidLookup) (dryrunA dryrunB : Option ValidDryRun) :
    ∃ s₀ s t s' file loaded dryrun₁ dryrun₂, honasStateCreate p = some (.ok s₀) ∧
      registerAll sha256 s₀ (dryrunA.map ValidDryRun.counters) A = some (s, dryrun₁) ∧
      registerAll sha256 s₀ (dryrunA.map ValidDryRun.counters) (A ++ B) = some (t, dryrun₂) ∧
      honasStatePersist estimate s = some (s', file) ∧
      honasStateLoad (some file) = some (.ok loaded) ∧
      (Agree loaded s ↔ Mirrored p (.ofLookups sha256 p A)) ∧
      ((∀ es, es <+: eventsOf sha256 p B → Mirrored p ((Tally.ofLookups sha256 p A).run p es)) →
        ∃ t' dryrun₃, registerAll sha256 loaded (dryrunB.map ValidDryRun.counters) B =
          some (t', dryrun₃) ∧ Agree t' t) := by
  obtain ⟨s₀, hc, h₀, ho₀⟩ := honasStateCreate_represents hok
  obtain ⟨s, dryrun₁, hs, hrs, hos⟩ :=
    registerAll_represents sha256 hok h₀ ho₀ dryrunA A
  obtain ⟨t, dryrun₂, ht, hrt, -⟩ :=
    registerAll_represents sha256 hok h₀ ho₀ dryrunA (A ++ B)
  obtain ⟨s', file, loaded, hp, hl, hrest⟩ := restarted estimate hok hrs hos
  refine ⟨s₀, s, t, s', file, loaded, _, _, hc, hs, ht, hp, hl, hrest.agree_iff hok.toFits hrs hos,
    fun hm => ?_⟩
  have hrl := hrest.represents hok.toFits hrs hos (hm [] (List.nil_prefix))
  obtain ⟨t', dryrun₃, ht', hrt', -⟩ := registerAll_mapped sha256 hok hrl hrest.mapped
    dryrunB B hm
  refine ⟨t', _, ht', hrt'.agree ?_⟩
  rw [eventsOf, List.flatMap_append, Tally.run_append] at hrt
  exact hrt

/-- What lookups add to the client counter. -/
theorem client_entries (sha256 : List Byte → Digest) (p : StateParams) (ls : List ValidLookup) :
    ((eventsOf sha256 p ls).flatMap fun e => e.entries .client) =
      ls.map fun l => hllEntry l.hash := by
  have hmap : ∀ es : List Event, (es.flatMap fun e => e.entries .client) =
      (es.filterMap Event.request).map fun r => hllEntry r.2 := by
    intro es
    induction es with
    | nil => rfl
    | cons e es ih =>
      rw [List.flatMap_cons, ih]
      cases hr : e.request with
      | none => rw [List.filterMap_cons_none hr, Event.entries, hr]; rfl
      | some r => rw [List.filterMap_cons_some hr, Event.entries, hr]; rfl
  rw [hmap, eventsOf_request, List.map_map]
  rfl

/-- Eight filters of eight bits, one hash, one filter per user. -/
def eightFilters : StateParams := ⟨8, 8, 1, 1, 0⟩

theorem eightFilters_ok : eightFilters.Ok := by
  refine ⟨⟨?_, ?_, ?_, ?_⟩, ?_, ?_, ?_⟩ <;> decide

/-- Only the last filter shares positions with a counter: the registers 0 and 1
    of the clients. -/
theorem eightFilters_mirrored {a : Tally} (hf : ∀ b, (7, b) ∉ a.filters)
    (h0 : a.regs .client 0 = 0) (h1 : a.regs .client 1 = 0) : Mirrored eightFilters a := by
  intro f hfn b hb c i hi heq
  have hlen : eightFilters.len = 1 := by decide
  have hn : eightFilters.n = 8 := by decide
  have hstride : eightFilters.stride = 4096 := by decide
  have hfirst : eightFilters.first = 4096 := by decide
  rw [hlen] at hb
  rw [hn] at hfn
  have hr : hllRegisters = 16384 := by decide
  rw [hr] at hi
  unfold StateParams.filterPos StateParams.countPos StateParams.countRegion at heq
  rw [hfirst, hstride, hn] at heq
  cases c with
  | hostName => dsimp only at heq; omega
  | client =>
    dsimp only at heq
    have h7 : f = 7 := by omega
    have hbi : i = b := by omega
    subst h7 hbi
    refine iff_of_false (hf i) ?_
    have : i / 6 = 0 ∨ i / 6 = 1 := by omega
    rw [packedBit]
    rcases this with h | h <;> rw [h] <;> simp [h0, h1]

theorem smallLookups_mirrored {es : List Event} (hes : ∀ e ∈ es, ∃ ls : List ValidLookup,
      (∀ l ∈ ls, l.hash = (smallLookup 1).hash) ∧
        e ∈ eventsOf (fun _ => zeroDigest) eightFilters ls) :
    Mirrored eightFilters (Tally.empty.run eightFilters es) := by
  have hreg : ∀ r, r ≠ (hllEntry (smallLookup 1).hash).1 →
      (Tally.empty.run eightFilters es).regs .client r = 0 := by
    intro r hr
    rw [Tally.run_regs]
    refine Nat.le_zero.1 (addAll_le_iff.2 ⟨le_rfl, fun entry hentry hidx => ?_⟩)
    obtain ⟨e, he, hent⟩ := List.mem_flatMap.1 hentry
    obtain ⟨ls, hls, hmem⟩ := hes e he
    have := client_entries (fun _ => zeroDigest) eightFilters ls
    have hin : entry ∈ ls.map fun l => hllEntry l.hash := by
      rw [← this]
      exact List.mem_flatMap.2 ⟨e, hmem, hent⟩
    obtain ⟨l, hl, rfl⟩ := List.mem_map.1 hin
    rw [hls l hl] at hidx
    exact absurd hidx.symm hr
  refine eightFilters_mirrored (fun b hb => ?_) (hreg 0 (by decide)) (hreg 1 (by decide))
  rw [Tally.run_filters, Set.mem_union] at hb
  obtain ⟨ent, hent, hf, -⟩ := hb.resolve_left (Set.notMem_empty _)
  obtain ⟨e, he, rfl⟩ := List.mem_map.1 hent
  obtain ⟨ls, hls, hmem⟩ := hes e he
  obtain ⟨l, hl, hel⟩ := List.mem_flatMap.1 hmem
  have hfil : 7 ∈ e.filters := hf
  rw [(mem_events hel).1, hls l hl] at hfil
  exact absurd hfil (by decide)

theorem restart_smallLookups : ∃ s₀ s t s' file loaded t' dryrun₁ dryrun₂ dryrun₃,
    honasStateCreate eightFilters = some (.ok s₀) ∧
    registerAll (fun _ => zeroDigest) s₀ none [smallLookup 1] = some (s, dryrun₁) ∧
    registerAll (fun _ => zeroDigest) s₀ none [smallLookup 1, smallLookup 2] = some (t, dryrun₂) ∧
    honasStatePersist (fun _ _ => 0) s = some (s', file) ∧
    honasStateLoad (some file) = some (.ok loaded) ∧
    registerAll (fun _ => zeroDigest) loaded none [smallLookup 2] = some (t', dryrun₃) ∧
    Agree t' t := by
  obtain ⟨s₀, s, t, s', file, loaded, dryrun₁, dryrun₂, hc, hs, ht, hp, hl, -, hrun⟩ :=
    restart eightFilters_ok (fun _ => zeroDigest) (fun _ _ => 0) [smallLookup 1] [smallLookup 2]
      none none
  obtain ⟨t', dryrun₃, ht', hagree⟩ := hrun fun es hes => by
    rw [Tally.ofLookups, ← Tally.run_append]
    refine smallLookups_mirrored fun e he => ?_
    rcases List.mem_append.1 he with he | he
    · exact ⟨_, fun l hl => by rw [List.mem_singleton.1 hl], he⟩
    · exact ⟨_, fun l hl => by rw [List.mem_singleton.1 hl]; rfl, hes.subset he⟩
  exact ⟨s₀, s, t, s', file, loaded, t', dryrun₁, dryrun₂, dryrun₃, hc, hs, ht, hp, hl, ht', hagree⟩

/-- The first bit of the filter is also the first bit of the client registers:
    a lookup sets one, but not the other. -/
theorem smallLookup_not_mirrored :
    ¬ Mirrored smallParams (.ofLookups (fun _ => zeroDigest) smallParams [smallLookup 1]) := by
  intro hm
  obtain ⟨stored, names, hn⟩ := List.exists_cons_of_ne_nil (smallLookup 1).names_ne_nil
  have hmem : (0, 0) ∈ (Tally.ofLookups (fun _ => zeroDigest) smallParams [smallLookup 1]).filters :=
    Tally.mem_ofLookups_filters.2 ⟨_, List.mem_singleton_self _, by decide, stored,
      by rw [hn]; exact List.mem_cons_self .., by decide⟩
  have hset := (hm 0 (by decide) 0 (by decide) .client 0 (by decide) (by decide)).1 hmem
  rw [Tally.ofLookups, Tally.run_regs, client_entries] at hset
  have hidx : (0 : ℕ) ≠ (hllEntry (smallLookup 1).hash).1 := by decide
  have hzero : addAll (Tally.empty.regs .client) [hllEntry (smallLookup 1).hash] 0 = 0 := by
    rw [addAll_cons, addAll_nil, raise_apply, if_neg hidx]
    rfl
  change (addAll (Tally.empty.regs .client) [hllEntry (smallLookup 1).hash] 0).testBit 0 =
    true at hset
  rw [hzero] at hset
  exact absurd hset (by decide)

theorem restart_smallLookup : ∃ s₀ s dryrun s' file loaded,
    honasStateCreate smallParams = some (.ok s₀) ∧
    registerAll (fun _ => zeroDigest) s₀ none [smallLookup 1] = some (s, dryrun) ∧
    honasStatePersist (fun _ _ => 0) s = some (s', file) ∧
    honasStateLoad (some file) = some (.ok loaded) ∧ ¬ Agree loaded s := by
  obtain ⟨s₀, hc, h₀, ho₀⟩ := honasStateCreate_represents smallParams_ok
  obtain ⟨s, dryrun, hs, hr, ho⟩ := registerAll_represents (fun _ => zeroDigest)
    smallParams_ok h₀ ho₀ none [smallLookup 1]
  obtain ⟨s', file, loaded, hp, hl, hrest⟩ := restarted (fun _ _ => 0) smallParams_ok hr ho
  exact ⟨s₀, s, _, s', file, loaded, hc, hs, hp, hl,
    fun hagree => smallLookup_not_mirrored
      ((hrest.agree_iff smallParams_ok.toFits hr ho).1 hagree)⟩

end Honas

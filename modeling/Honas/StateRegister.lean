/-
  What registering a lookup does to a state.

  A lookup is a sequence of events: each stored string is one, and the first
  one also carries the request (`ValidLookup.events`).  The lemmas here
  describe the effect of each part of an event on the memory, bit by bit, in
  both cases: the registers of the counters are on the heap (`Owned`), or in
  the memory of the state file (`Mapped`).
-/
import Honas.Tally
import Honas.Lib.Run

namespace Honas

open Bits MaxSketch

/-! ## Memory updates -/

theorem Shaped.header_le {p : StateParams} {s : HonasState} (h : Shaped p s) :
    sizeofHeader ≤ s.mmap.length := by
  rw [h.length]; exact p.sizeofHeader_le

/-- Changing the memory behind the header, and the counters. -/
theorem Shaped.update {p : StateParams} {s : HonasState} (h : Shaped p s) {m : List Byte}
    (counts : Counter → Hll) (hl : m.length = s.mmap.length)
    (hb : ∀ i, i < 8 * sizeofHeader → bitAt m i = bitAt s.mmap i) :
    Shaped p { s with mmap := m, counts := counts } ∧
      ∀ f, ({ s with mmap := m, counts := counts } : HonasState).header f = s.header f := by
  have hh : ∀ f, headerGet m f = headerGet s.mmap f := headerGet_congr hl hb
  exact ⟨⟨hl.trans h.length, fun f hf => (hh f).trans (h.config f hf), h.filters, h.countRegisters,
    h.combinations, h.filterBitsSet⟩, hh⟩

/-- Setting a field that is not part of the configuration. -/
theorem Shaped.setHeader {p : StateParams} {s : HonasState} (h : Shaped p s) {f : HeaderField}
    (hf : f.isConfig = false) (v : ℕ) : Shaped p (s.setHeader f v) := by
  refine ⟨(length_headerSet h.header_le f v).trans h.length, fun g hg => ?_, h.filters,
    h.countRegisters, h.combinations, h.filterBitsSet⟩
  have hne : g ≠ f := by
    rintro rfl
    rw [hf] at hg
    exact absurd hg (by decide)
  exact (headerGet_headerSet_of_ne h.header_le hne v).trans (h.config g hg)

theorem header_setHeader {p : StateParams} {s : HonasState} (h : Shaped p s) (f g : HeaderField)
    (v : ℕ) : (s.setHeader f v).header g = if g = f then v % 256 ^ f.width else s.header g := by
  split_ifs with hg
  · rw [hg]; exact headerGet_headerSet_self h.header_le f v
  · exact headerGet_headerSet_of_ne h.header_le hg v

theorem bitAt_setHeader {p : StateParams} {s : HonasState} (h : Shaped p s) (f : HeaderField)
    (v : ℕ) {i : ℕ} (hi : 8 * sizeofHeader ≤ i) :
    bitAt (s.setHeader f v).mmap i = bitAt s.mmap i :=
  bitAt_headerSet h.header_le f v hi

/-! ## The request -/

/-- The request times and the number of requests in the header. -/
def HonasState.times (s : HonasState) : ℕ × ℕ := (s.header .firstRequest, s.header .lastRequest)

theorem countRequest_spec {p : StateParams} {s : HonasState} (h : Shaped p s) (t : BitVec 64) :
    Shaped p (s.countRequest t) ∧ (s.countRequest t).counts = s.counts ∧
      (∀ i, 8 * sizeofHeader ≤ i → bitAt (s.countRequest t).mmap i = bitAt s.mmap i) ∧
      (s.countRequest t).times = nextTimes s.times t.toNat ∧
      (s.countRequest t).header .numberOfRequests = (s.header .numberOfRequests + 1) % 2 ^ 64 := by
  have ht : t.toNat < 18446744073709551616 := t.isLt
  have h1 := h.setHeader (f := .lastRequest) rfl t.toNat
  have h2 := h1.setHeader (f := .firstRequest) rfl t.toNat
  unfold HonasState.countRequest HonasState.times nextTimes
  dsimp only
  by_cases hlast : s.header .lastRequest < t.toNat
  · rw [if_pos hlast]
    have hfirst : (s.setHeader .lastRequest t.toNat).header .firstRequest = s.header .firstRequest := by
      rw [header_setHeader h, if_neg (by decide)]
    rw [hfirst]
    by_cases h0 : s.header .firstRequest = 0
    · rw [if_pos h0]
      refine ⟨h2.setHeader rfl _, rfl, fun i hi => ?_, ?_, ?_⟩
      · rw [bitAt_setHeader h2 _ _ hi, bitAt_setHeader h1 _ _ hi, bitAt_setHeader h _ _ hi]
      · simp [header_setHeader h2, header_setHeader h1, header_setHeader h, HeaderField.width, ht,
          hlast, h0]
      · simp [header_setHeader h2, header_setHeader h1, header_setHeader h, HeaderField.width]
    · rw [if_neg h0]
      refine ⟨h1.setHeader rfl _, rfl, fun i hi => ?_, ?_, ?_⟩
      · rw [bitAt_setHeader h1 _ _ hi, bitAt_setHeader h _ _ hi]
      · simp [header_setHeader h1, header_setHeader h, HeaderField.width, ht, hlast, h0]
      · simp [header_setHeader h1, header_setHeader h, HeaderField.width]
  · rw [if_neg hlast]
    refine ⟨h.setHeader rfl _, rfl, fun i hi => bitAt_setHeader h _ _ hi, ?_, ?_⟩
    · simp [header_setHeader h, hlast]
    · simp [header_setHeader h, HeaderField.width]

/-- The fields that a request changes. -/
def HeaderField.isRequest (f : HeaderField) : Bool :=
  f = .firstRequest ∨ f = .lastRequest ∨ f = .numberOfRequests

theorem header_countRequest {p : StateParams} {s : HonasState} (h : Shaped p s) (t : BitVec 64)
    {f : HeaderField} (hf : f.isRequest = false) : (s.countRequest t).header f = s.header f := by
  simp only [HeaderField.isRequest, decide_eq_false_iff_not, not_or] at hf
  obtain ⟨hfirst, hlast, hnumber⟩ := hf
  have h1 := h.setHeader (f := .lastRequest) rfl t.toNat
  have h2 := h1.setHeader (f := .firstRequest) rfl t.toNat
  unfold HonasState.countRequest
  dsimp only
  split_ifs
  · rw [header_setHeader h2, if_neg hnumber, header_setHeader h1, if_neg hfirst, header_setHeader h,
      if_neg hlast]
  · rw [header_setHeader h1, if_neg hnumber, header_setHeader h, if_neg hlast]
  · rw [header_setHeader h, if_neg hnumber]

/-! ## Counters -/

/-- The registers of a counter are on the heap. -/
structure OwnedCount (hll : Hll) : Prop where
  owned : hll.registersOwned = true
  aligned : hll.registers.addr % sizeofSizeT = 0
  tail : hll.CleanTail

/-- The registers of a counter are in the memory of the state file. -/
structure MappedCount (hll : Hll) : Prop where
  notOwned : hll.registersOwned = false
  encoding : hll.encoding = .dense

/-- A position of a bit of some filter. -/
def StateParams.IsFilterPos (p : StateParams) (x : ℕ) : Prop :=
  ∃ f < p.n, ∃ b < 8 * p.len, x = p.filterPos f b

/-- The counters of a state own their registers, and the memory behind the
    header is zero outside of the filters. -/
structure Owned (p : StateParams) (s : HonasState) : Prop where
  counts : ∀ c, OwnedCount (s.counts c)
  blank : ∀ x, 8 * p.first ≤ x → ¬ p.IsFilterPos x → bitAt s.mmap x = false

/-- The counters of a state have their registers in its memory. -/
def Mapped (s : HonasState) : Prop := ∀ c, MappedCount (s.counts c)

theorem count_owned {s : HonasState} {c : Counter} (h : OwnedCount (s.counts c)) :
    s.count c = some (s.counts c) := by
  rw [HonasState.count, if_pos h.owned]

theorem readRegion_eq {m : List Byte} {r : Region} (h : r.off + r.len ≤ m.length) :
    readRegion m r = some ⟨r.off, slice m r.off r.len⟩ := if_pos h

/-- The registers of a mapped counter. -/
theorem count_mapped {p : StateParams} {s : HonasState} (hs : Shaped p s) {c : Counter}
    (h : MappedCount (s.counts c)) :
    s.count c = some { s.counts c with
      registers := ⟨(p.countRegion c).off, slice s.mmap (p.countRegion c).off hllDenseSize⟩ } := by
  have hlen : (p.countRegion c).len = hllDenseSize := by cases c <;> rfl
  have hend := p.countRegion_end c
  rw [HonasState.count, if_neg (by simp [h.notOwned]), hs.countRegisters, readRegion_eq
    (by rw [hs.length]; exact hend), hlen]
  rfl

/-- **Adding to a counter on the heap** does not touch the memory. -/
theorem addCount_owned {s : HonasState} {c : Counter} {regs : ℕ → ℕ} (h : OwnedCount (s.counts c))
    (hr : HasRegs (s.counts c) regs) (hash : BitVec 64) :
    ∃ hll, s.addCount c hash = some { s with counts := Function.update s.counts c hll } ∧
      OwnedCount hll ∧ HasRegs hll (raise regs (hllEntry hash)) := by
  obtain ⟨hll, ha, hr', hst⟩ := hllAdd_spec hr hash
  have howned : hll.registersOwned = true := hst.owned.trans h.owned
  refine ⟨hll, ?_, ⟨howned, hst.aligned h.aligned, hst.tail h.tail⟩, hr'⟩
  rw [HonasState.addCount, count_owned h]
  simp only [Option.bind_eq_bind, Option.bind_some, ha]
  rw [HonasState.setCount, if_pos howned]

/-- **Adding to a counter in the memory** changes the six bits of its register. -/
theorem addCount_mapped {p : StateParams} {s : HonasState} (hs : Shaped p s) {c : Counter}
    (h : MappedCount (s.counts c)) (hash : BitVec 64) :
    ∃ m hll, s.addCount c hash =
        some { s with mmap := m, counts := Function.update s.counts c hll } ∧ MappedCount hll ∧
      m.length = s.mmap.length ∧
      ∀ i, bitAt m i =
        if p.countPos c (6 * (hllEntry hash).1) ≤ i ∧ i < p.countPos c (6 * (hllEntry hash).1) + 6 then
          (max (hllDenseGetRegister (slice s.mmap (p.countRegion c).off hllDenseSize)
            (hllEntry hash).1) (hllEntry hash).2).testBit (i - p.countPos c (6 * (hllEntry hash).1))
        else bitAt s.mmap i := by
  have hclen : (p.countRegion c).len = hllDenseSize := by cases c <;> rfl
  have hend : (p.countRegion c).off + hllDenseSize ≤ s.mmap.length := by
    rw [hs.length, ← hclen]; exact p.countRegion_end c
  have hsl := length_slice hend
  have hidx : (hllEntry hash).1 < hllRegisters := hllPatLen_index_lt hash
  have hsize : hllDenseSize = 12289 := by decide
  obtain ⟨hlen, -, hbit⟩ := hllDenseAdd_spec hsl hash
  set sl := slice s.mmap (p.countRegion c).off hllDenseSize with hsl'
  obtain ⟨card, ha⟩ := hllAdd_dense
    (show ({ s.counts c with registers := ⟨(p.countRegion c).off, sl⟩ } : Hll).encoding = .dense
      from h.encoding) hash
  have hspl : (p.countRegion c).off + (hllDenseAdd sl hash).1.length ≤ s.mmap.length := by
    rw [hlen]; exact hend
  refine ⟨splice s.mmap (p.countRegion c).off (hllDenseAdd sl hash).1,
    { s.counts c with card := card, registers := ⟨0, []⟩ }, ?_, ⟨h.notOwned, h.encoding⟩,
    length_splice hspl, fun i => ?_⟩
  · rw [HonasState.addCount, count_mapped hs h]
    simp only [Option.bind_eq_bind, Option.bind_some, ← hsl', ha]
    rw [HonasState.setCount, if_neg (by simp [h.notOwned])]
    rfl
  · have h1 : (hllEntry hash).1 = (hllPatLen hash).2 := rfl
    have h2 : (hllEntry hash).2 = (hllPatLen hash).1 := rfl
    rw [h1, show hllRegisters = 16384 by rfl] at hidx
    rw [bitAt_splice hspl, hlen, hbit]
    simp only [h1, h2, StateParams.countPos]
    by_cases hin : 8 * (p.countRegion c).off ≤ i ∧ i < 8 * ((p.countRegion c).off + hllDenseSize)
    · rw [if_pos hin]
      by_cases hr : 6 * (hllPatLen hash).2 ≤ i - 8 * (p.countRegion c).off ∧
          i - 8 * (p.countRegion c).off < 6 * (hllPatLen hash).2 + 6
      · rw [if_pos hr, if_pos (by omega), Nat.sub_sub]
      · rw [if_neg hr, if_neg (by omega), hsl', bitAt_slice, decide_eq_true (by omega),
          Bool.true_and]
        congr 1; omega
    · rw [if_neg hin, if_neg (by omega)]

/-! ## Filters -/

theorem Shaped.filter {p : StateParams} {s : HonasState} (hs : Shaped p s) {f : ℕ} (hf : f < p.n) :
    s.filters[f]? = some (p.filterRegion f) ∧ readRegion s.mmap (p.filterRegion f) =
      some ⟨p.first + f * p.stride, slice s.mmap (p.first + f * p.stride) p.len⟩ ∧
      p.first + f * p.stride + p.len ≤ s.mmap.length := by
  have hend := p.filter_end hf
  have hle := p.len_le_stride
  have hlen : p.first + f * p.stride + p.len ≤ s.mmap.length := by rw [hs.length]; omega
  refine ⟨?_, readRegion_eq hlen, hlen⟩
  rw [hs.filters, List.getElem?_map, List.getElem?_range hf]
  rfl

/-- The positions of the bits of a digest in the filters of a list. -/
def StateParams.storedPos (p : StateParams) (filters : List ℕ) (d : Digest) : List ℕ :=
  filters.flatMap fun f => (p.offsets f d).map (p.filterPos f)

theorem StateParams.filterPos_inj {p : StateParams} {f f' b b' : ℕ} (hb : b < 8 * p.len)
    (hb' : b' < 8 * p.len) (h : p.filterPos f b = p.filterPos f' b') : f = f' ∧ b = b' := by
  have hle := p.len_le_stride
  have key : ∀ f f' b b' : ℕ, b < 8 * p.stride → 8 * (f * p.stride) + b = 8 * (f' * p.stride) + b' →
      f' ≤ f := by
    intro f f' b b' hb h
    by_contra hlt
    have := Nat.mul_le_mul_right p.stride (show f + 1 ≤ f' by omega)
    rw [Nat.succ_mul] at this
    omega
  unfold StateParams.filterPos at h
  have h1 := key f f' b b' (by omega) (by omega)
  have h2 := key f' f b' b (by omega) (by omega)
  have h3 : f = f' := by omega
  subst h3
  exact ⟨rfl, by omega⟩

theorem StateParams.Ok.mem_storedPos {p : StateParams} (h : p.Ok) {filters : List ℕ} {d : Digest}
    {f b : ℕ} (hb : b < 8 * p.len) :
    p.filterPos f b ∈ p.storedPos filters d ↔ f ∈ filters ∧ b ∈ p.offsets f d := by
  simp only [StateParams.storedPos, List.mem_flatMap, List.mem_map]
  constructor
  · rintro ⟨f', hf', b', hb', heq⟩
    obtain ⟨rfl, rfl⟩ := StateParams.filterPos_inj (h.offsets_lt _ hb') hb heq
    exact ⟨hf', hb'⟩
  · rintro ⟨hf, hb'⟩
    exact ⟨f, hf, b, hb', rfl⟩

/-- The bits of a digest are behind the header. -/
theorem StateParams.header_le_storedPos {p : StateParams} {filters : List ℕ} {d : Digest} {i : ℕ}
    (hi : i ∈ p.storedPos filters d) : 8 * sizeofHeader ≤ i := by
  have := p.header_le_first
  simp only [storedPos, List.mem_flatMap, List.mem_map] at hi
  obtain ⟨f, -, b, -, rfl⟩ := hi
  unfold filterPos; omega

/-- **Setting a digest in one filter** sets its bits there. -/
theorem setInFilter_spec {p : StateParams} (h : p.Ok) {s : HonasState} (hs : Shaped p s) {f : ℕ}
    (hf : f < p.n) (d : Digest) :
    ∃ m, HonasState.setInFilter p.hashes d.1 s f = some { s with mmap := m } ∧
      m.length = s.mmap.length ∧
      ∀ i, bitAt m i = (bitAt s.mmap i || decide (i ∈ (p.offsets f d).map (p.filterPos f))) := by
  obtain ⟨hreg, hread, hlen⟩ := hs.filter hf
  obtain ⟨ht, htl⟩ := transform_spec f d
  have hsl := length_slice hlen
  obtain ⟨filter, hset, haddr, hflen, hbits⟩ := bloomSet_spec
    ⟨p.first + f * p.stride, slice s.mmap (p.first + f * p.stride) p.len⟩
    (transformed f d) p.hashes (by rw [ByteSlice.len, hsl]; exact h.bloomOk)
    (by omega) (by omega)
  have hflen' : filter.bytes.length = p.len := hflen.trans hsl
  have hspl : p.first + f * p.stride + filter.bytes.length ≤ s.mmap.length := by
    rw [hflen']; exact hlen
  refine ⟨splice s.mmap (p.first + f * p.stride) filter.bytes, ?_, length_splice hspl, fun i => ?_⟩
  · rw [HonasState.setInFilter, ht]
    simp only [Option.bind_eq_bind, Option.bind_some, hreg, hread, hset]
    rw [writeRegion, haddr]
  · have hmem : i ∈ (p.offsets f d).map (p.filterPos f) ↔
        8 * (p.first + f * p.stride) ≤ i ∧ i - 8 * (p.first + f * p.stride) ∈ p.offsets f d := by
      rw [List.mem_map]
      constructor
      · rintro ⟨b, hb, rfl⟩
        exact ⟨Nat.le_add_right _ _, by rwa [StateParams.filterPos, Nat.add_sub_cancel_left]⟩
      · rintro ⟨hle, hb⟩
        exact ⟨_, hb, by rw [StateParams.filterPos]; omega⟩
    rw [bitAt_splice hspl, hflen']
    by_cases hin : 8 * (p.first + f * p.stride) ≤ i ∧ i < 8 * (p.first + f * p.stride + p.len)
    · rw [if_pos hin, hbits, bitAt_slice, decide_eq_true (by omega), Bool.true_and,
        show 8 * (p.first + f * p.stride) + (i - 8 * (p.first + f * p.stride)) = i by omega,
        ByteSlice.len, hsl]
      congr 1
      exact decide_eq_decide.2 (by rw [hmem]; exact (and_iff_right hin.1).symm)
    · rw [if_neg hin, decide_eq_false, Bool.or_false]
      rw [hmem]
      rintro ⟨hle, hb⟩
      have := h.offsets_lt _ hb
      omega

/-- **Setting a digest in several filters.** -/
theorem setInFilters_spec {p : StateParams} (h : p.Ok) (d : Digest) :
    ∀ (filters : List ℕ) {s : HonasState}, Shaped p s → (∀ f ∈ filters, f < p.n) →
      ∃ m, filters.foldlM (HonasState.setInFilter p.hashes d.1) s = some { s with mmap := m } ∧
        m.length = s.mmap.length ∧
        ∀ i, bitAt m i = (bitAt s.mmap i || decide (i ∈ p.storedPos filters d))
  | [], s, _, _ => ⟨s.mmap, rfl, rfl, fun i => by simp [StateParams.storedPos]⟩
  | f :: filters, s, hs, hf => by
    rw [List.forall_mem_cons] at hf
    obtain ⟨m, he, hl, hb⟩ := setInFilter_spec h hs hf.1 d
    have hhead : ∀ i, i < 8 * sizeofHeader → bitAt m i = bitAt s.mmap i := by
      intro i hi
      have := p.header_le_first
      rw [hb, decide_eq_false, Bool.or_false]
      rw [List.mem_map]
      rintro ⟨b, -, rfl⟩
      rw [StateParams.filterPos] at hi; omega
    obtain ⟨m', he', hl', hb'⟩ := setInFilters_spec h d filters (hs.update s.counts hl hhead).1 hf.2
    refine ⟨m', ?_, hl'.trans hl, fun i => ?_⟩
    · rw [List.foldlM_cons, he]
      exact he'
    · have hcons : p.storedPos (f :: filters) d =
          (p.offsets f d).map (p.filterPos f) ++ p.storedPos filters d := List.flatMap_cons
      rw [hb', hb, Bool.or_assoc, hcons, ← Bool.decide_or]
      congr 1
      exact decide_eq_decide.2 List.mem_append.symm

/-! ## Keeping a tally -/

/-- A state keeps a tally. -/
structure Represents (p : StateParams) (a : Tally) (s : HonasState) : Prop extends Shaped p s where
  bits : ∀ f < p.n, ∀ b < 8 * p.len, bitAt s.mmap (p.filterPos f b) = true ↔ (f, b) ∈ a.filters
  regs : ∀ c, ∃ hll, s.count c = some hll ∧ HasRegs hll (a.regs c)
  requests : s.header .numberOfRequests = a.requests % 2 ^ 64
  times : s.times = a.times

/-- What a new state keeps. -/
theorem honasStateCreate_represents {p : StateParams} (h : p.Ok) :
    ∃ s, honasStateCreate p = some (.ok s) ∧ Represents p .empty s ∧ Owned p s := by
  obtain ⟨s, hc, hs, hcounts, hz, hb⟩ := honasStateCreate_spec h
  have howned : Owned p s := by
    refine ⟨fun c => ?_, fun x hx _ => hb x ?_⟩
    · rw [hcounts]
      exact ⟨rfl, rfl, fun he => absurd (show HllEncoding.sparse = .dense from he) (by decide)⟩
    · have := p.header_le_first
      omega
  refine ⟨s, hc, ⟨hs, fun f _ b _ => ?_, fun c => ?_, ?_, ?_⟩, howned⟩
  · have := p.header_le_first
    rw [hb _ (by unfold StateParams.filterPos; omega)]
    simp [Tally.empty]
  · exact ⟨_, count_owned (howned.counts c), by rw [hcounts]; exact hllInit_regs⟩
  · rw [hz .numberOfRequests (by decide)]; rfl
  · rw [HonasState.times, hz .firstRequest (by decide), hz .lastRequest (by decide)]; rfl

namespace HonasState

/-- The request of an event. -/
def startEvent (s : HonasState) (e : Event) : Option HonasState :=
  match e.request with
  | some (t, hash) => (s.countRequest t).addCount .client hash
  | none => some s

/-- What a state does at an event. -/
def runEvent (nrHashes : ℕ) (s : HonasState) (e : Event) : Option HonasState := do
  let s ← s.startEvent e
  let s ← s.addCount .hostName e.digest.word
  e.filters.foldlM (setInFilter nrHashes e.digest.1) s

end HonasState

/-! ## With the counters on the heap -/

section Owned

variable {p : StateParams} {a : Tally} {s : HonasState}

theorem Represents.request (h : Represents p a s) (ho : Owned p s) (t : BitVec 64) :
    Represents p (a.request t) (s.countRequest t) ∧ Owned p (s.countRequest t) := by
  obtain ⟨hs, hc, hb, ht, hn⟩ := countRequest_spec h.toShaped t
  have ho' : Owned p (s.countRequest t) := by
    refine ⟨fun c => by rw [hc]; exact ho.counts c, fun x hx hnx => ?_⟩
    have := p.header_le_first
    rw [hb x (by omega)]
    exact ho.blank x hx hnx
  refine ⟨⟨hs, fun f hf b hb' => ?_, fun c => ?_, ?_, ?_⟩, ho'⟩
  · have := p.header_le_first
    rw [hb _ (by unfold StateParams.filterPos; omega)]
    exact h.bits f hf b hb'
  · obtain ⟨hll, hcount, hr⟩ := h.regs c
    rw [count_owned (ho.counts c)] at hcount
    exact ⟨hll, by rw [count_owned (ho'.counts c), hc]; exact hcount, hr⟩
  · rw [hn, h.requests, Tally.request]; exact Nat.mod_add_mod _ _ _
  · rw [ht, h.times]; rfl

theorem Represents.regs_of_owned (h : Represents p a s) (ho : Owned p s) (c : Counter) :
    HasRegs (s.counts c) (a.regs c) := by
  obtain ⟨hll, hc, hr⟩ := h.regs c
  rw [count_owned (ho.counts c), Option.some_inj] at hc
  rw [hc]; exact hr

/-- Replacing a counter. -/
theorem Represents.setCount (h : Represents p a s) (ho : Owned p s) (c : Counter) {hll : Hll}
    (hh : OwnedCount hll) {regs : ℕ → ℕ} (hr : HasRegs hll regs) :
    Represents p { a with regs := Function.update a.regs c regs }
        { s with counts := Function.update s.counts c hll } ∧
      Owned p { s with counts := Function.update s.counts c hll } := by
  have hs := (h.toShaped.update (Function.update s.counts c hll) rfl fun _ _ => rfl).1
  have ho' : Owned p { s with counts := Function.update s.counts c hll } := by
    refine ⟨fun c' => ?_, ho.blank⟩
    by_cases hcc : c' = c
    · subst hcc; simpa using hh
    · simpa [hcc] using ho.counts c'
  refine ⟨⟨hs, h.bits, fun c' => ⟨_, count_owned (ho'.counts c'), ?_⟩, h.requests, h.times⟩, ho'⟩
  by_cases hcc : c' = c
  · subst hcc; simpa using hr
  · simpa [hcc] using h.regs_of_owned ho c'

theorem Represents.count (h : Represents p a s) (ho : Owned p s) (c : Counter) (hash : BitVec 64) :
    ∃ s', s.addCount c hash = some s' ∧ Represents p (a.count c hash) s' ∧ Owned p s' := by
  obtain ⟨hll, ha, hh, hr⟩ := addCount_owned (ho.counts c) (h.regs_of_owned ho c) hash
  exact ⟨_, ha, h.setCount ho c hh hr⟩

theorem Represents.store (hok : p.Ok) (h : Represents p a s) (ho : Owned p s) {filters : List ℕ}
    (hf : ∀ f ∈ filters, f < p.n) (d : Digest) :
    ∃ s', filters.foldlM (HonasState.setInFilter p.hashes d.1) s = some s' ∧
      Represents p (a.store p filters d) s' ∧ Owned p s' := by
  obtain ⟨m, he, hl, hb⟩ := setInFilters_spec hok d filters h.toShaped hf
  obtain ⟨hs, hh⟩ := h.toShaped.update s.counts hl fun i hi => by
    rw [hb, decide_eq_false fun hmem => ?_, Bool.or_false]
    exact absurd (p.header_le_storedPos hmem) (by omega)
  have ho' : Owned p { s with mmap := m } := by
    refine ⟨ho.counts, fun x hx hnx => ?_⟩
    change bitAt m x = false
    rw [hb, ho.blank x hx hnx, Bool.false_or, decide_eq_false]
    intro hmem
    obtain ⟨f, hf', hxf⟩ := List.mem_flatMap.1 hmem
    obtain ⟨b, hb', rfl⟩ := List.mem_map.1 hxf
    exact hnx ⟨f, hf f hf', b, hok.offsets_lt b hb', rfl⟩
  refine ⟨_, he, ⟨hs, fun f hf' b hb' => ?_, fun c => ?_, ?_, ?_⟩, ho'⟩
  · rw [hb, Bool.or_eq_true, h.bits f hf' b hb', decide_eq_true_iff, hok.mem_storedPos hb']
    simp [Tally.store, FilterBank.contents, StateParams.bits]
  · obtain ⟨hll, hcount, hr⟩ := h.regs c
    rw [count_owned (ho.counts c)] at hcount
    exact ⟨hll, (count_owned (ho'.counts c)).trans hcount, hr⟩
  · exact (hh .numberOfRequests).trans h.requests
  · exact (Prod.ext (hh _) (hh _)).trans h.times

theorem Represents.start (h : Represents p a s) (ho : Owned p s) (e : Event) :
    ∃ s₁, s.startEvent e = some s₁ ∧ Represents p (a.start e) s₁ ∧ Owned p s₁ := by
  unfold HonasState.startEvent Tally.start
  cases e.request with
  | none => exact ⟨s, rfl, h, ho⟩
  | some r =>
    obtain ⟨h₁, ho₁⟩ := h.request ho r.1
    exact h₁.count ho₁ .client r.2

/-- **One event.** -/
theorem Represents.event (hok : p.Ok) (h : Represents p a s) (ho : Owned p s) {e : Event}
    (hf : ∀ f ∈ e.filters, f < p.n) :
    ∃ s', s.runEvent p.hashes e = some s' ∧ Represents p (a.step p e) s' ∧ Owned p s' := by
  obtain ⟨s₁, he₁, h₁, ho₁⟩ := h.start ho e
  obtain ⟨s₂, he₂, h₂, ho₂⟩ := h₁.count ho₁ .hostName e.digest.word
  obtain ⟨s₃, he₃, h₃, ho₃⟩ := h₂.store hok ho₂ hf e.digest
  refine ⟨s₃, ?_, h₃, ho₃⟩
  rw [HonasState.runEvent, he₁]
  simp only [Option.bind_eq_bind, Option.bind_some, he₂, he₃]

end Owned

/-! ## With the counters in the memory -/

theorem packedBit_raise (regs : ℕ → ℕ) (e : ℕ × ℕ) (i : ℕ) :
    packedBit (raise regs e) i = if 6 * e.1 ≤ i ∧ i < 6 * e.1 + 6 then
      (max (regs e.1) e.2).testBit (i - 6 * e.1) else packedBit regs i := by
  rw [packedBit, raise_apply]
  by_cases h : i / 6 = e.1
  · rw [if_pos h, if_pos (by omega), h, show i % 6 = i - 6 * e.1 by omega]
  · rw [if_neg h, if_neg (by omega), packedBit]

/-- The counters are in the memory, packed. -/
structure MappedRegs (p : StateParams) (regs : Counter → ℕ → ℕ) (s : HonasState) : Prop where
  mapped : Mapped s
  bits : ∀ c, ∀ i < 6 * hllRegisters, bitAt s.mmap (p.countPos c i) = packedBit (regs c) i
  small : ∀ c, ∀ r < hllRegisters, regs c r < 64

/-- A position of a register bit of some counter. -/
def StateParams.IsCountPos (p : StateParams) (x : ℕ) : Prop :=
  ∃ c, ∃ i < 6 * hllRegisters, x = p.countPos c i

/-- The registers of the two counters do not share a bit. -/
theorem StateParams.countPos_ne {p : StateParams} {c c' : Counter} (h : c ≠ c') {i j : ℕ}
    (hi : i < 6 * hllRegisters) (hj : j < 6 * hllRegisters) : p.countPos c i ≠ p.countPos c' j := by
  rw [show hllRegisters = 16384 by rfl] at hi hj
  cases c <;> cases c' <;> first
    | exact absurd rfl h
    | (unfold StateParams.countPos StateParams.countRegion; dsimp only; omega)

section Mapped

variable {p : StateParams} {s : HonasState} {regs : Counter → ℕ → ℕ}

/-- The registers of a counter in the memory, and as numbers. -/
theorem mappedCount_iff (hs : Shaped p s) {c : Counter} (hm : MappedCount (s.counts c))
    {r : ℕ → ℕ} (hlt : ∀ i < hllRegisters, r i < 64) :
    (∃ hll, s.count c = some hll ∧ HasRegs hll r) ↔
      ∀ i < 6 * hllRegisters, bitAt s.mmap (p.countPos c i) = packedBit r i := by
  have hend : (p.countRegion c).off + hllDenseSize ≤ s.mmap.length := by
    have := p.countRegion_end c
    rw [show (p.countRegion c).len = hllDenseSize by cases c <;> rfl] at this
    rw [hs.length]; exact this
  have hbit : ∀ i < 6 * hllRegisters, bitAt (slice s.mmap (p.countRegion c).off hllDenseSize) i =
      bitAt s.mmap (p.countPos c i) := by
    intro i hi
    rw [show hllRegisters = 16384 by rfl] at hi
    rw [bitAt_slice, decide_eq_true, Bool.true_and, StateParams.countPos]
    rw [show hllDenseSize = 12289 by decide]; omega
  rw [count_mapped hs hm]
  simp only [Option.some_inj, exists_eq_left']
  rw [HasRegs.dense (by exact hm.encoding), forall_register_iff hlt]
  constructor
  · rintro ⟨-, h⟩ i hi
    rw [← h i hi, hbit i hi]
  · intro h
    exact ⟨length_slice hend, fun i hi => (hbit i hi).trans (h i hi)⟩

/-- **Adding to a mapped counter.** -/
theorem MappedRegs.count (hf : p.Fits) (hs : Shaped p s) (h : MappedRegs p regs s) (c : Counter)
    (hash : BitVec 64) :
    ∃ s', s.addCount c hash = some s' ∧ Shaped p s' ∧ (∀ f, s'.header f = s.header f) ∧
      MappedRegs p (Function.update regs c (raise (regs c) (hllEntry hash))) s' ∧
      ∀ x, ¬ p.IsCountPos x → bitAt s'.mmap x = bitAt s.mmap x := by
  obtain ⟨m, hll, ha, hm, hl, hb⟩ := addCount_mapped hs (h.mapped c) hash
  have hidx : (hllEntry hash).1 < hllRegisters := hllPatLen_index_lt hash
  have hval : (hllEntry hash).2 < 64 := hllPatLen_lt hash
  obtain ⟨c₀, hc₀, hr₀⟩ := (mappedCount_iff hs (h.mapped c) (h.small c)).2 (h.bits c)
  rw [count_mapped hs (h.mapped c), Option.some_inj] at hc₀
  subst hc₀
  have hreg := ((HasRegs.dense (by exact (h.mapped c).encoding)).1 hr₀).2 _ hidx
  simp only [hreg] at hb
  have hinside : ∀ x, ¬ p.IsCountPos x → bitAt m x = bitAt s.mmap x := by
    intro x hx
    rw [hb, if_neg]
    rintro ⟨h1, h2⟩
    unfold StateParams.countPos at h1 h2
    exact hx ⟨c, x - 8 * (p.countRegion c).off, by omega, by unfold StateParams.countPos; omega⟩
  have hhead : ∀ i, i < 8 * sizeofHeader → bitAt m i = bitAt s.mmap i := by
    refine fun i hi => hinside i ?_
    rintro ⟨c', j, -, rfl⟩
    have h1 := hf.countRegion_off_ge c'
    have h2 := p.header_le_first
    unfold StateParams.countPos at hi; omega
  obtain ⟨hs', hh⟩ := hs.update (Function.update s.counts c hll) hl hhead
  refine ⟨_, ha, hs', hh, ⟨fun c' => ?_, fun c' i hi => ?_, fun c' r hr => ?_⟩, hinside⟩
  · by_cases hcc : c' = c
    · subst hcc; simpa using hm
    · simpa [hcc] using h.mapped c'
  · change bitAt m _ = _
    rw [hb]
    by_cases hcc : c' = c
    · subst hcc
      rw [Function.update_self, packedBit_raise]
      unfold StateParams.countPos
      by_cases hin : 6 * (hllEntry hash).1 ≤ i ∧ i < 6 * (hllEntry hash).1 + 6
      · rw [if_pos hin, if_pos (by omega)]
        congr 1; omega
      · rw [if_neg hin, if_neg (by omega)]
        exact h.bits c' i hi
    · rw [Function.update_of_ne hcc, if_neg, h.bits c' i hi]
      rintro ⟨h1, h2⟩
      refine StateParams.countPos_ne (p := p) hcc hi (j := p.countPos c' i - 8 * (p.countRegion c).off)
        ?_ ?_ <;> unfold StateParams.countPos at h1 h2 ⊢ <;> omega
  · by_cases hcc : c' = c
    · subst hcc
      rw [Function.update_self, raise_apply]
      have := h.small c' r hr
      split_ifs
      · exact max_lt this hval
      · exact this
    · rw [Function.update_of_ne hcc]; exact h.small c' r hr

/-- Where the filters and the counters overlap, a filter bit is set exactly if
    the register bit is. -/
def Mirrored (p : StateParams) (a : Tally) : Prop :=
  ∀ f < p.n, ∀ b < 8 * p.len, ∀ c, ∀ i < 6 * hllRegisters, p.filterPos f b = p.countPos c i →
    ((f, b) ∈ a.filters ↔ packedBit (a.regs c) i = true)

/-- **Setting a digest in filters**, with the counters in the memory: with a
    mirrored result the registers stay. -/
theorem MappedRegs.store (hok : p.Ok) (hs : Shaped p s) (h : MappedRegs p regs s)
    {filters : List ℕ} (hf : ∀ f ∈ filters, f < p.n) (d : Digest) {a : Tally} (hm : Mirrored p a)
    (hregs : a.regs = regs)
    (hsub : FilterBank.contents p.bits [⟨filters, d⟩] ⊆ a.filters) :
    ∃ s', filters.foldlM (HonasState.setInFilter p.hashes d.1) s = some s' ∧ Shaped p s' ∧
      (∀ f, s'.header f = s.header f) ∧ MappedRegs p regs s' ∧
      ∀ x, bitAt s'.mmap x = (bitAt s.mmap x || decide (x ∈ p.storedPos filters d)) := by
  obtain ⟨m, he, hl, hb⟩ := setInFilters_spec hok d filters hs hf
  obtain ⟨hs', hh⟩ := hs.update s.counts hl fun i hi => by
    rw [hb, decide_eq_false fun hmem => ?_, Bool.or_false]
    exact absurd (p.header_le_storedPos hmem) (by omega)
  refine ⟨_, he, hs', hh, ⟨h.mapped, fun c i hi => ?_, h.small⟩, hb⟩
  change bitAt m _ = _
  rw [hb, h.bits c i hi]
  by_cases hmem : p.countPos c i ∈ p.storedPos filters d
  · -- a stored bit is a filter bit, so the register bit is set already
    obtain ⟨f, hf', hx⟩ := List.mem_flatMap.1 hmem
    obtain ⟨b, hb', hpos⟩ := List.mem_map.1 hx
    have hmirror := (hm f (hf f hf') b (hok.offsets_lt b hb') c i hi hpos).1
      (hsub ⟨_, List.mem_singleton_self _, hf', hb'⟩)
    rw [hregs] at hmirror
    rw [hmirror]; rfl
  · rw [decide_eq_false hmem, Bool.or_false]

theorem Represents.mappedRegs {a : Tally} (h : Represents p a s) (hm : Mapped s) :
    MappedRegs p a.regs s := by
  have hsmall : ∀ c, ∀ r < hllRegisters, a.regs c r < 64 := fun c r hr => by
    obtain ⟨hll, -, hreg⟩ := h.regs c
    exact hreg.lt hr
  exact ⟨hm, fun c => (mappedCount_iff h.toShaped (hm c) (hsmall c)).1 (h.regs c), hsmall⟩

theorem MappedRegs.start (hok : p.Ok) (hs : Shaped p s) {a : Tally} (h : MappedRegs p a.regs s)
    (hn : s.header .numberOfRequests = a.requests % 2 ^ 64) (ht : s.times = a.times) (e : Event) :
    ∃ s₁, s.startEvent e = some s₁ ∧ Shaped p s₁ ∧ MappedRegs p (a.start e).regs s₁ ∧
      s₁.header .numberOfRequests = (a.start e).requests % 2 ^ 64 ∧
      s₁.times = (a.start e).times ∧
      ∀ x, 8 * sizeofHeader ≤ x → ¬ p.IsCountPos x → bitAt s₁.mmap x = bitAt s.mmap x := by
  unfold HonasState.startEvent Tally.start
  cases e.request with
  | none => exact ⟨s, rfl, hs, h, hn, ht, fun _ _ _ => rfl⟩
  | some r =>
    obtain ⟨hs₁, hc₁, hb₁, ht₁, hn₁⟩ := countRequest_spec hs r.1
    have h₁ : MappedRegs p a.regs (s.countRequest r.1) := by
      refine ⟨fun c => by rw [hc₁]; exact h.mapped c, fun c i hi => ?_, h.small⟩
      have h1 := hok.countRegion_off_ge c
      have h2 := p.header_le_first
      rw [hb₁ _ (by unfold StateParams.countPos; omega)]
      exact h.bits c i hi
    obtain ⟨s₂, he₂, hs₂, hh₂, h₂, hb₂⟩ := h₁.count hok.toFits hs₁ .client r.2
    refine ⟨s₂, he₂, hs₂, h₂, ?_, ?_, fun x hx hnx => (hb₂ x hnx).trans (hb₁ x hx)⟩
    · rw [hh₂, hn₁, hn]; exact Nat.mod_add_mod _ _ _
    · rw [HonasState.times, hh₂, hh₂]
      exact ht₁.trans (by rw [ht]; rfl)

/-- **One event**, with the counters in the memory. -/
theorem Represents.event_mapped (hok : p.Ok) {a : Tally} (h : Represents p a s) (hm : Mapped s)
    {e : Event} (hf : ∀ f ∈ e.filters, f < p.n) (hmir : Mirrored p (a.step p e)) :
    ∃ s', s.runEvent p.hashes e = some s' ∧ Represents p (a.step p e) s' ∧ Mapped s' := by
  obtain ⟨s₁, he₁, hs₁, h₁, hn₁, ht₁, hb₁⟩ :=
    (h.mappedRegs hm).start hok h.toShaped h.requests h.times e
  obtain ⟨s₂, he₂, hs₂, hh₂, h₂, hb₂⟩ := h₁.count hok.toFits hs₁ .hostName e.digest.word
  obtain ⟨s₃, he₃, hs₃, hh₃, h₃, hb₃⟩ := h₂.store hok hs₂ hf e.digest hmir rfl
    Set.subset_union_right
  refine ⟨s₃, ?_, ⟨hs₃, fun f hf' b hb => ?_, fun c => ?_, ?_, ?_⟩, h₃.mapped⟩
  · rw [HonasState.runEvent, he₁]
    simp only [Option.bind_eq_bind, Option.bind_some, he₂, he₃]
  · by_cases hpos : p.IsCountPos (p.filterPos f b)
    · obtain ⟨c, i, hi, heq⟩ := hpos
      rw [hmir f hf' b hb c i hi heq, heq, h₃.bits c i hi]
      rfl
    · have hhead : 8 * sizeofHeader ≤ p.filterPos f b := by
        have := p.header_le_first
        unfold StateParams.filterPos; omega
      rw [hb₃, hb₂ _ hpos, hb₁ _ hhead hpos, Bool.or_eq_true, h.bits f hf' b hb,
        decide_eq_true_iff, hok.mem_storedPos hb, Tally.step_filters]
      simp [FilterBank.contents, StateParams.bits, Event.entry]
  · exact (mappedCount_iff hs₃ (h₃.mapped c) (h₃.small c)).2 (h₃.bits c)
  · rw [hh₃, hh₂]; exact hn₁
  · exact (Prod.ext ((hh₃ _).trans (hh₂ _)) ((hh₃ _).trans (hh₂ _))).trans ht₁

end Mapped

/-! ## The dry run -/

/-- Dry-run counters whose counters are well formed. -/
structure ValidDryRun where
  counters : DryRunCounters
  hourly : ∃ regs, HasRegs counters.hourlyGlobal regs
  daily : ∃ regs, HasRegs counters.dailyGlobal regs

theorem ValidDryRun.add (d : ValidDryRun) (hash : BitVec 64) :
    ∃ d' : ValidDryRun, d.counters.add hash = some d'.counters := by
  obtain ⟨regs, hh⟩ := d.hourly
  obtain ⟨regs', hd⟩ := d.daily
  obtain ⟨hourly, h1, hr1, -⟩ := hllAdd_spec hh hash
  obtain ⟨daily, h2, hr2, -⟩ := hllAdd_spec hd hash
  refine ⟨⟨{ d.counters with hourlyGlobal := hourly, dailyGlobal := daily }, ⟨_, hr1⟩, ⟨_, hr2⟩⟩, ?_⟩
  rw [DryRunCounters.add, h1]
  simp only [Option.bind_eq_bind, Option.bind_some, h2]

/-! ## Lookups as events -/

section Lookups

variable {sha256 : List Byte → Digest} {p : StateParams}

/-- The stored strings of a lookup, with the dry run. -/
theorem storeNames_of_events {nrHashes : ℕ} {filters : List ℕ} : ∀ (names : List StoredName)
    {s s' : HonasState} (dryrun : Option ValidDryRun),
    (names.map fun stored => (⟨none, filters, sha256 stored.name⟩ : Event)).foldlM
      (HonasState.runEvent nrHashes) s = some s' →
    ∃ dryrun' : Option ValidDryRun,
      names.foldlM (HonasState.storeName sha256 nrHashes filters)
        (s, dryrun.map ValidDryRun.counters) = some (s', dryrun'.map ValidDryRun.counters)
  | [], s, s', dryrun, h => ⟨dryrun, by
      rw [List.map_nil, List.foldlM_nil] at h
      rw [List.foldlM_nil, Option.some_inj.1 h]; rfl⟩
  | stored :: names, s, s', dryrun, h => by
    rw [List.map_cons, List.foldlM_cons] at h
    obtain ⟨s₂, h₂, hrest⟩ := Option.bind_eq_some_iff.1 h
    obtain ⟨s₁, h₁, hfold⟩ := Option.bind_eq_some_iff.1
      (show (s.addCount .hostName (sha256 stored.name).word).bind _ = some s₂ from h₂)
    have hone : ∃ dryrun' : Option ValidDryRun,
        HonasState.storeName sha256 nrHashes filters (s, dryrun.map ValidDryRun.counters) stored =
          some (s₂, dryrun'.map ValidDryRun.counters) := by
      rw [HonasState.storeName]
      simp only [Option.bind_eq_bind, h₁, Option.bind_some, hfold]
      cases dryrun with
      | none => exact ⟨none, rfl⟩
      | some d =>
        obtain ⟨d', hd'⟩ := d.add
          (if stored.whole then uint64Hash stored.name else (sha256 stored.name).word)
        exact ⟨some d', by simp only [Option.map_some, hd', Option.bind_some]⟩
    obtain ⟨dryrun₁, hd₁⟩ := hone
    obtain ⟨dryrun', hd'⟩ := storeNames_of_events names dryrun₁ hrest
    refine ⟨dryrun', ?_⟩
    rw [List.foldlM_cons, hd₁]
    exact hd'

/-- **A call is the run of its events.** -/
theorem register_of_events (hok : p.Ok) {s s' : HonasState} {l : ValidLookup}
    (hstart : ∀ e s₁, s.startEvent e = some s₁ → Shaped p s₁) (dryrun : Option ValidDryRun)
    (h : (l.events sha256 p).foldlM (HonasState.runEvent p.hashes) s = some s') :
    ∃ dryrun' : Option ValidDryRun,
      honasStateRegisterHostNameLookup sha256 s l.toLookup (dryrun.map ValidDryRun.counters) =
        some (s', dryrun'.map ValidDryRun.counters) := by
  obtain ⟨first, names, hn⟩ := List.exists_cons_of_ne_nil l.names_ne_nil
  obtain ⟨nr, hnr, hnr0, hcomb, -⟩ := hok.filtersOf_spec l.hash
  rw [ValidLookup.events, hn, List.foldlM_cons] at h
  obtain ⟨s₂, h₂, hrest⟩ := Option.bind_eq_some_iff.1 h
  obtain ⟨s₁, h₁, hfirst⟩ := Option.bind_eq_some_iff.1 h₂
  have hs₁ := hstart _ _ h₁
  have hall : ((first :: names).map fun stored =>
      (⟨none, p.filtersOf l.hash, sha256 stored.name⟩ : Event)).foldlM
        (HonasState.runEvent p.hashes) s₁ = some s' := by
    rw [List.map_cons, List.foldlM_cons]
    exact Option.bind_eq_some_iff.2 ⟨s₂, hfirst, hrest⟩
  obtain ⟨dryrun', hd⟩ := storeNames_of_events (first :: names) dryrun hall
  rw [← hn] at hd
  have hcall : honasStateRegisterHostNameLookup sha256 s l.toLookup
      (dryrun.map ValidDryRun.counters) = some (s',
        if l.qtype ≠ ldnsRrTypePtr then (dryrun'.map ValidDryRun.counters).map DryRunCounters.total
        else dryrun'.map ValidDryRun.counters) := by
    have hc : (s.countRequest l.timestamp).addCount .client l.hash = some s₁ := h₁
    rw [honasStateRegisterHostNameLookup]
    simp only [ValidLookup.toLookup, l.clientHash_eq, Option.bind_eq_bind, Option.bind_some, hc,
      hs₁.config .numberOfFilters rfl, hs₁.config .numberOfHashes rfl,
      hs₁.config .numberOfFiltersPerUser rfl, StateParams.config, l.hostNameStrings_eq]
    have hnr' : s₁.nrFiltersPerUserCombinations = nr :=
      Option.some_inj.1 (hs₁.combinations.symm.trans hnr)
    simp only [hnr', if_neg hnr0, hcomb, Option.bind_some, hd]
    rfl
  rw [hcall]
  by_cases hq : l.qtype ≠ ldnsRrTypePtr
  · refine ⟨dryrun'.map fun d => ⟨d.counters.total, d.hourly, d.daily⟩, ?_⟩
    rw [if_pos hq, Option.map_map, Option.map_map]
    rfl
  · exact ⟨dryrun', by rw [if_neg hq]⟩

/-- Register several lookups. -/
def registerAll (sha256 : List Byte → Digest) (s : HonasState) (dryrun : Option DryRunCounters)
    (ls : List ValidLookup) : Option (HonasState × Option DryRunCounters) :=
  ls.foldlM (fun acc l => honasStateRegisterHostNameLookup sha256 acc.1 l.toLookup acc.2) (s, dryrun)

/-- **Induction over the events of lookups.** -/
theorem exists_registerAll {R : List Event → HonasState → Prop} {C : List Event → Event → Prop}
    (hok : p.Ok) (hstart : ∀ h s, R h s → ∀ e s₁, s.startEvent e = some s₁ → Shaped p s₁)
    (hstep : ∀ h s e, R h s → C h e → ∃ s', s.runEvent p.hashes e = some s' ∧ R (h ++ [e]) s') :
    ∀ (ls : List ValidLookup) {h : List Event} {s : HonasState} (dryrun : Option ValidDryRun),
      R h s → (∀ pre e rest, eventsOf sha256 p ls = pre ++ e :: rest → C (h ++ pre) e) →
      ∃ s', ∃ dryrun' : Option ValidDryRun,
        registerAll sha256 s (dryrun.map ValidDryRun.counters) ls =
          some (s', dryrun'.map ValidDryRun.counters) ∧ R (h ++ eventsOf sha256 p ls) s'
  | [], h, s, dryrun, hr, _ => ⟨s, dryrun, rfl, by simpa [eventsOf] using hr⟩
  | l :: ls, h, s, dryrun, hr, hC => by
    have hcons : eventsOf sha256 p (l :: ls) = l.events sha256 p ++ eventsOf sha256 p ls := rfl
    rw [hcons] at hC ⊢
    obtain ⟨s₁, he₁, hr₁⟩ := Run.exists_run hstep (l.events sha256 p) hr
      fun pre e rest heq => hC pre e (rest ++ eventsOf sha256 p ls) (by rw [heq]; simp)
    obtain ⟨dryrun₁, hd₁⟩ := register_of_events hok (hstart _ _ hr) dryrun he₁
    obtain ⟨s', dryrun', he', hr'⟩ := exists_registerAll hok hstart hstep ls dryrun₁ hr₁
      fun pre e rest heq => by
        simpa using hC (l.events sha256 p ++ pre) e rest (by rw [heq]; simp)
    refine ⟨s', dryrun', ?_, by simpa using hr'⟩
    rw [registerAll, List.foldlM_cons, hd₁]
    exact he'

theorem StateParams.Ok.eventsOf_filters_lt (hok : p.Ok) {ls : List ValidLookup} {e : Event}
    (he : e ∈ eventsOf sha256 p ls) : ∀ f ∈ e.filters, f < p.n := by
  obtain ⟨l, -, hl⟩ := List.mem_flatMap.1 he
  obtain ⟨-, -, -, -, hs⟩ := hok.filtersOf_spec l.hash
  rw [(mem_events hl).1]
  exact hs.lt

/-- **Registering lookups** adds their tally. -/
theorem registerAll_represents (sha256 : List Byte → Digest) (hok : p.Ok) {a : Tally} {s : HonasState} (h : Represents p a s)
    (ho : Owned p s) (dryrun : Option ValidDryRun) (ls : List ValidLookup) :
    ∃ s', ∃ dryrun' : Option ValidDryRun,
      registerAll sha256 s (dryrun.map ValidDryRun.counters) ls =
        some (s', dryrun'.map ValidDryRun.counters) ∧
      Represents p (a.run p (eventsOf sha256 p ls)) s' ∧ Owned p s' := by
  refine exists_registerAll (R := fun es s => Represents p (a.run p es) s ∧ Owned p s)
    (C := fun _ e => ∀ f ∈ e.filters, f < p.n) hok ?_ ?_ ls (h := []) dryrun ⟨h, ho⟩ ?_
  · rintro es s ⟨hr, ho⟩ e s₁ he
    obtain ⟨s₁', he', hr', -⟩ := hr.start ho e
    rw [he, Option.some_inj] at he'
    exact he' ▸ hr'.toShaped
  · rintro es s e ⟨hr, ho⟩ hf
    rw [Tally.run_append]
    exact hr.event hok ho hf
  · intro pre e rest heq
    exact hok.eventsOf_filters_lt (by rw [heq]; simp)

/-- **Registering lookups** with the counters in the memory, as long as the
    tally is mirrored. -/
theorem registerAll_mapped (sha256 : List Byte → Digest) (hok : p.Ok) {a : Tally} {s : HonasState} (h : Represents p a s)
    (hm : Mapped s) (dryrun : Option ValidDryRun) (ls : List ValidLookup)
    (hmir : ∀ es, es <+: eventsOf sha256 p ls → Mirrored p (a.run p es)) :
    ∃ s', ∃ dryrun' : Option ValidDryRun,
      registerAll sha256 s (dryrun.map ValidDryRun.counters) ls =
        some (s', dryrun'.map ValidDryRun.counters) ∧
      Represents p (a.run p (eventsOf sha256 p ls)) s' ∧ Mapped s' := by
  refine exists_registerAll (R := fun es s => Represents p (a.run p es) s ∧ Mapped s)
    (C := fun es e => (∀ f ∈ e.filters, f < p.n) ∧ Mirrored p (a.run p (es ++ [e])))
    hok ?_ ?_ ls (h := []) dryrun ⟨h, hm⟩ ?_
  · rintro es s ⟨hr, hm⟩ e s₁ he
    obtain ⟨s₁', he', hs', -⟩ := (hr.mappedRegs hm).start hok hr.toShaped hr.requests hr.times e
    rw [he, Option.some_inj] at he'
    exact he' ▸ hs'
  · rintro es s e ⟨hr, hm⟩ ⟨hf, hmir⟩
    rw [Tally.run_append] at hmir ⊢
    exact hr.event_mapped hok hm hf hmir
  · intro pre e rest heq
    exact ⟨hok.eventsOf_filters_lt (by rw [heq]; simp), hmir _ ⟨rest, by rw [heq]; simp⟩⟩

end Lookups

end Honas

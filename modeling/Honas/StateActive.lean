/-
  The state that a collector has open.

  It was created or loaded, and lookups have been registered since.  `Active` is
  what all these states share: registering a lookup succeeds (`Active.register`)
  exactly if the address family is supported and the strings of the name fit
  in the buffers.  If the counters are on the heap, only the bits of the stored
  strings are set behind the header.
-/
import Honas.StatePersist

namespace Honas

open Bits CString

/-- A counter on the heap or in the memory of the state. -/
def ActiveCount (hll : Hll) : Prop :=
  (OwnedCount hll ∧ ∃ regs, HasRegs hll regs) ∨ MappedCount hll

/-- A state that has been created or loaded. -/
structure Active (p : StateParams) (s : HonasState) : Prop extends Shaped p s where
  counts : ∀ c, ActiveCount (s.counts c)

/-- All counters are on the heap. -/
def OnHeap (s : HonasState) : Prop := ∀ c, OwnedCount (s.counts c)

section

variable {p : StateParams} {s : HonasState}

theorem Active.of_owned {a : Tally} (h : Represents p a s) (ho : Owned p s) :
    Active p s ∧ OnHeap s :=
  ⟨⟨h.toShaped, fun c => .inl ⟨ho.counts c, _, h.regs_of_owned ho c⟩⟩, ho.counts⟩

theorem Active.of_mapped (hs : Shaped p s) (hm : Mapped s) : Active p s :=
  ⟨hs, fun c => .inr (hm c)⟩

theorem Active.update {counts : Counter → Hll} {m : List Byte} (h : Active p s)
    (hl : m.length = s.mmap.length) (hb : ∀ i, i < 8 * sizeofHeader → bitAt m i = bitAt s.mmap i)
    (hc : ∀ c, ActiveCount (counts c)) : Active p { s with mmap := m, counts := counts } ∧
      ∀ f, ({ s with mmap := m, counts := counts } : HonasState).header f = s.header f :=
  ⟨⟨(h.toShaped.update counts hl hb).1, hc⟩, (h.toShaped.update counts hl hb).2⟩

theorem Active.countRequest (h : Active p s) (t : BitVec 64) : Active p (s.countRequest t) ∧
    (OnHeap s → OnHeap (s.countRequest t)) ∧
    ∀ x, 8 * sizeofHeader ≤ x → bitAt (s.countRequest t).mmap x = bitAt s.mmap x := by
  obtain ⟨hs, hc, hb, -, -⟩ := countRequest_spec h.toShaped t
  exact ⟨⟨hs, fun c => by rw [hc]; exact h.counts c⟩, fun ho c => by rw [hc]; exact ho c, hb⟩

/-- **Counting.** -/
theorem Active.addCount (hf : p.Fits) (h : Active p s) (c : Counter) (hash : BitVec 64) :
    ∃ s', s.addCount c hash = some s' ∧ Active p s' ∧ (∀ f, s'.header f = s.header f) ∧
      (OnHeap s → OnHeap s' ∧ s'.mmap = s.mmap) := by
  have hupdate : ∀ {hll : Hll}, ActiveCount hll →
      ∀ c', ActiveCount (Function.update s.counts c hll c') := by
    intro hll hhll c'
    by_cases hcc : c' = c
    · rw [hcc, Function.update_self]
      exact hhll
    · rw [Function.update_of_ne hcc]
      exact h.counts c'
  rcases h.counts c with ⟨ho, regs, hr⟩ | hm
  · obtain ⟨hll, ha, hh, hr'⟩ := addCount_owned ho hr hash
    obtain ⟨hact, hheader⟩ := h.update rfl (fun _ _ => rfl) (hupdate (.inl ⟨hh, _, hr'⟩))
    refine ⟨_, ha, hact, hheader, fun hheap => ⟨fun c' => ?_, rfl⟩⟩
    by_cases hcc : c' = c
    · subst hcc
      dsimp only
      rw [Function.update_self]
      exact hh
    · dsimp only
      rw [Function.update_of_ne hcc]
      exact hheap c'
  · obtain ⟨m, hll, ha, hm', hl, hb⟩ := addCount_mapped h.toShaped hm hash
    have hhead : ∀ i, i < 8 * sizeofHeader → bitAt m i = bitAt s.mmap i := by
      intro i hi
      have h1 := p.header_le_first
      have h2 := hf.countRegion_off_ge c
      rw [hb, if_neg]
      rintro ⟨hle, -⟩
      rw [StateParams.countPos] at hle
      omega
    obtain ⟨hact, hheader⟩ := h.update hl hhead (hupdate (.inr hm'))
    refine ⟨_, ha, hact, hheader, fun hheap => ?_⟩
    have := (hheap c).owned
    rw [hm.notOwned] at this
    cases this

/-- **Setting a digest in filters.** -/
theorem Active.setInFilters (hok : p.Ok) (h : Active p s) {filters : List ℕ}
    (hf : ∀ f ∈ filters, f < p.n) (d : Digest) :
    ∃ s', filters.foldlM (HonasState.setInFilter p.hashes d.1) s = some s' ∧ Active p s' ∧
      (∀ f, s'.header f = s.header f) ∧ s'.counts = s.counts ∧
      ∀ x, bitAt s'.mmap x = (bitAt s.mmap x || decide (x ∈ p.storedPos filters d)) := by
  obtain ⟨m, he, hl, hb⟩ := setInFilters_spec hok d filters h.toShaped hf
  have hhead : ∀ i, i < 8 * sizeofHeader → bitAt m i = bitAt s.mmap i := by
    intro i hi
    rw [hb, decide_eq_false fun hmem => ?_, Bool.or_false]
    exact absurd (p.header_le_storedPos hmem) (by omega)
  obtain ⟨hact, hheader⟩ := h.update hl hhead h.counts
  exact ⟨_, he, hact, hheader, rfl, hb⟩

variable (sha256 : List Byte → Digest)

/-- One stored string. -/
theorem Active.storeName (hok : p.Ok) (h : Active p s) {filters : List ℕ}
    (hf : ∀ f ∈ filters, f < p.n) (dryrun : Option ValidDryRun) (stored : StoredName) :
    ∃ s', ∃ dryrun' : Option ValidDryRun,
      HonasState.storeName sha256 p.hashes filters (s, dryrun.map ValidDryRun.counters) stored =
        some (s', dryrun'.map ValidDryRun.counters) ∧ Active p s' ∧
      (∀ f, s'.header f = s.header f) ∧
      (OnHeap s → OnHeap s' ∧ ∀ x, bitAt s'.mmap x =
        (bitAt s.mmap x || decide (x ∈ p.storedPos filters (sha256 stored.name)))) := by
  obtain ⟨s₁, h₁, ha₁, hh₁, ho₁⟩ := h.addCount hok.toFits .hostName (sha256 stored.name).word
  obtain ⟨s₂, h₂, ha₂, hh₂, hc₂, hb₂⟩ := ha₁.setInFilters hok hf (sha256 stored.name)
  have hheader : ∀ f, s₂.header f = s.header f := fun f => (hh₂ f).trans (hh₁ f)
  have hheap : OnHeap s → OnHeap s₂ ∧ ∀ x, bitAt s₂.mmap x =
      (bitAt s.mmap x || decide (x ∈ p.storedPos filters (sha256 stored.name))) := by
    intro ho
    obtain ⟨hos, hm⟩ := ho₁ ho
    refine ⟨fun c => by rw [hc₂]; exact hos c, fun x => by rw [hb₂, hm]⟩
  cases dryrun with
  | none =>
    refine ⟨s₂, none, ?_, ha₂, hheader, hheap⟩
    rw [HonasState.storeName]
    simp only [Option.bind_eq_bind, h₁, Option.bind_some, h₂]
    rfl
  | some d =>
    obtain ⟨d', hd'⟩ := d.add
      (if stored.whole then uint64Hash stored.name else (sha256 stored.name).word)
    refine ⟨s₂, some d', ?_, ha₂, hheader, hheap⟩
    rw [HonasState.storeName]
    simp only [Option.bind_eq_bind, h₁, Option.bind_some, h₂, Option.map_some, hd']

/-- All strings of a lookup. -/
theorem Active.storeNames (hok : p.Ok) {filters : List ℕ} (hf : ∀ f ∈ filters, f < p.n) :
    ∀ (names : List StoredName) {s : HonasState}, Active p s → ∀ dryrun : Option ValidDryRun,
    ∃ s', ∃ dryrun' : Option ValidDryRun,
      names.foldlM (HonasState.storeName sha256 p.hashes filters)
        (s, dryrun.map ValidDryRun.counters) = some (s', dryrun'.map ValidDryRun.counters) ∧
      Active p s' ∧ (∀ f, s'.header f = s.header f) ∧
      (OnHeap s → OnHeap s' ∧ ∀ x, bitAt s'.mmap x = true ↔
        bitAt s.mmap x = true ∨ ∃ stored ∈ names, x ∈ p.storedPos filters (sha256 stored.name))
  | [], s, h, dryrun => ⟨s, dryrun, rfl, h, fun _ => rfl, fun ho => ⟨ho, fun x => by simp⟩⟩
  | stored :: names, s, h, dryrun => by
    obtain ⟨s₁, dryrun₁, h₁, ha₁, hh₁, ho₁⟩ := h.storeName sha256 hok hf dryrun stored
    obtain ⟨s', dryrun', h', ha', hh', ho'⟩ := Active.storeNames hok hf names ha₁ dryrun₁
    refine ⟨s', dryrun', ?_, ha', fun f => (hh' f).trans (hh₁ f), fun ho => ?_⟩
    · rw [List.foldlM_cons, h₁]
      exact h'
    · obtain ⟨hos₁, hb₁⟩ := ho₁ ho
      obtain ⟨hos', hb'⟩ := ho' hos₁
      refine ⟨hos', fun x => ?_⟩
      rw [hb', hb₁, Bool.or_eq_true, decide_eq_true_iff, or_assoc]
      refine or_congr_right ?_
      rw [List.exists_mem_cons_iff]

/-- **Registering a lookup** succeeds if the address family is supported and the
    strings fit. -/
theorem Active.register (hok : p.Ok) (h : Active p s) {l : Lookup} {hash : BitVec 64}
    {names : List StoredName} (hc : clientHash l.client = some hash)
    (hn : hostNameStrings l.hostName l.entity l.qtype = some names)
    (dryrun : Option ValidDryRun) :
    ∃ s', ∃ dryrun' : Option ValidDryRun,
      honasStateRegisterHostNameLookup sha256 s l (dryrun.map ValidDryRun.counters) =
        some (s', dryrun'.map ValidDryRun.counters) ∧ Active p s' ∧
      (∀ f : HeaderField, f.isRequest = false → s'.header f = s.header f) ∧
      (OnHeap s → OnHeap s' ∧ ∀ x, 8 * sizeofHeader ≤ x → (bitAt s'.mmap x = true ↔
        bitAt s.mmap x = true ∨
          ∃ stored ∈ names, x ∈ p.storedPos (p.filtersOf hash) (sha256 stored.name))) := by
  obtain ⟨nr, hnr, hnr0, hcomb, hsub⟩ := hok.filtersOf_spec hash
  obtain ⟨ha₀, ho₀, hb₀⟩ := h.countRequest l.timestamp
  obtain ⟨s₁, h₁, ha₁, hh₁, ho₁⟩ := ha₀.addCount hok.toFits .client hash
  have hlt : ∀ f ∈ p.filtersOf hash, f < p.n := hsub.lt
  obtain ⟨s₂, dryrun₂, h₂, ha₂, hh₂, ho₂⟩ := Active.storeNames sha256 hok hlt names ha₁ dryrun
  have hheader : ∀ f : HeaderField, f.isRequest = false → s₂.header f = s.header f := fun f hf =>
    (hh₂ f).trans ((hh₁ f).trans (header_countRequest h.toShaped l.timestamp hf))
  have hcall : honasStateRegisterHostNameLookup sha256 s l (dryrun.map ValidDryRun.counters) =
      some (s₂, if l.qtype ≠ ldnsRrTypePtr then
        (dryrun₂.map ValidDryRun.counters).map DryRunCounters.total
        else dryrun₂.map ValidDryRun.counters) := by
    have hs₁ := ha₁.toShaped
    have hnr' : s₁.nrFiltersPerUserCombinations = nr :=
      Option.some_inj.1 (hs₁.combinations.symm.trans hnr)
    rw [honasStateRegisterHostNameLookup]
    simp only [hc, Option.bind_eq_bind, Option.bind_some, h₁, hs₁.config .numberOfFilters rfl,
      hs₁.config .numberOfHashes rfl, hs₁.config .numberOfFiltersPerUser rfl, StateParams.config,
      hn, hnr', if_neg hnr0, hcomb, h₂]
  have hheap : OnHeap s → OnHeap s₂ ∧ ∀ x, 8 * sizeofHeader ≤ x → (bitAt s₂.mmap x = true ↔
      bitAt s.mmap x = true ∨
        ∃ stored ∈ names, x ∈ p.storedPos (p.filtersOf hash) (sha256 stored.name)) := by
    intro ho
    obtain ⟨hos₁, hm₁⟩ := ho₁ (ho₀ ho)
    obtain ⟨hos₂, hb₂⟩ := ho₂ hos₁
    refine ⟨hos₂, fun x hx => ?_⟩
    rw [hb₂, hm₁, hb₀ x hx]
  rw [hcall]
  by_cases hq : l.qtype ≠ ldnsRrTypePtr
  · refine ⟨s₂, dryrun₂.map fun d => ⟨d.counters.total, d.hourly, d.daily⟩, ?_, ha₂, hheader, hheap⟩
    rw [if_pos hq, Option.map_map, Option.map_map]
    rfl
  · exact ⟨s₂, dryrun₂, by rw [if_neg hq], ha₂, hheader, hheap⟩

end

/-- A call that succeeds has a client and strings. -/
theorem register_some {sha256 : List Byte → Digest} {s s' : HonasState} {l : Lookup}
    {dryrun dryrun' : Option DryRunCounters}
    (h : honasStateRegisterHostNameLookup sha256 s l dryrun = some (s', dryrun')) :
    (∃ hash, clientHash l.client = some hash) ∧
      ∃ names, hostNameStrings l.hostName l.entity l.qtype = some names := by
  rw [honasStateRegisterHostNameLookup] at h
  obtain ⟨hash, hc, h⟩ := Option.bind_eq_some_iff.1 h
  refine ⟨⟨hash, hc⟩, ?_⟩
  obtain ⟨s₁, -, h⟩ := Option.bind_eq_some_iff.1 h
  dsimp only at h
  by_cases h0 : s₁.nrFiltersPerUserCombinations = 0
  · rw [if_pos h0] at h
    cases h
  rw [if_neg h0] at h
  obtain ⟨indexes, -, h⟩ := Option.bind_eq_some_iff.1 h
  obtain ⟨names, hn, -⟩ := Option.bind_eq_some_iff.1 h
  exact ⟨names, hn⟩

/-! ## Equal names -/

/-- **Names are canonicalised**: two names that are equal in lower case and
    without a trailing dot leave the same state and the same dry run. -/
theorem register_canonical (sha256 : List Byte → Digest) (s : HonasState) (timestamp : BitVec 64)
    (client : InAddr46) (entity : Option (List Byte)) (qtype : ℕ) (dryrun : Option DryRunCounters)
    {a b : List Byte} (ha : a ≠ []) (hb : b ≠ []) (hla : a.length ≤ 255) (hlb : b.length ≤ 255)
    (h : canonicalForm a = canonicalForm b) :
    honasStateRegisterHostNameLookup sha256 s ⟨timestamp, client, a, entity, qtype⟩ dryrun =
      honasStateRegisterHostNameLookup sha256 s ⟨timestamp, client, b, entity, qtype⟩ dryrun := by
  have hnames := hostNameStrings_congr ha hb hla hlb h entity qtype
  simp only [honasStateRegisterHostNameLookup, hnames]

/-- `"NL."` and `"nl"`, on a new state. -/
theorem register_canonical_nl : ∃ s, honasStateCreate smallParams = some (.ok s) ∧
    honasStateRegisterHostNameLookup (fun _ => zeroDigest) s
        ⟨1, .inet 0, [0x4e#8, 0x4c#8, dot], none, 1⟩ none =
      honasStateRegisterHostNameLookup (fun _ => zeroDigest) s
        ⟨1, .inet 0, [0x6e#8, 0x6c#8], none, 1⟩ none := by
  obtain ⟨s, hc, -⟩ := honasStateCreate_spec smallParams_ok
  exact ⟨s, hc, register_canonical _ s 1 (.inet 0) none 1 none (by decide) (by decide) (by decide)
    (by decide) (by decide)⟩

end Honas

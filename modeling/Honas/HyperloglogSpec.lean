/-
  What the HyperLogLog operations do to the registers.

  `HasRegs hll regs` relates a counter, in either encoding, to its registers.
  Adding a hash raises one register (`hllAdd_spec`), so the registers of a
  counter after any sequence of additions are the maxima of the pattern
  lengths (`hllAddAll_spec`), and do not depend on where the encoding changed
  from sparse to dense.  Merging two counters computes the bitwise or of their
  registers (`hllMerge_spec`).
-/
import Honas.HyperloglogSparse
import Honas.Lib.MaxSketch

namespace Honas

open Bits MaxSketch

/-- The bits behind the registers of a dense counter are zero. -/
def Hll.CleanTail (hll : Hll) : Prop :=
  hll.encoding = .dense → ∀ i, 6 * hllRegisters ≤ i → bitAt hll.registers.bytes i = false

/-- What an addition does not touch: who owns the registers, (up to a new
    allocation) where they are, and the bits behind them. -/
structure SameStore (hll hll' : Hll) : Prop where
  owned : hll'.registersOwned = hll.registersOwned
  addr : hll'.registers.addr = hll.registers.addr ∨ hll'.registers.addr = 0
  tail : hll.CleanTail → hll'.CleanTail

theorem SameStore.refl (hll : Hll) : SameStore hll hll := ⟨rfl, .inl rfl, id⟩

theorem SameStore.trans {a b c : Hll} (h1 : SameStore a b) (h2 : SameStore b c) : SameStore a c := by
  refine ⟨h2.owned.trans h1.owned, ?_, fun h => h2.tail (h1.tail h)⟩
  rcases h2.addr with h | h
  · rw [h]; exact h1.addr
  · exact .inr h

theorem SameStore.aligned {a b : Hll} (h : SameStore a b)
    (ha : a.registers.addr % sizeofSizeT = 0) : b.registers.addr % sizeofSizeT = 0 := by
  rcases h.addr with h | h
  · rw [h]; exact ha
  · rw [h]; rfl

theorem HasRegs.sparse {hll : Hll} {regs : ℕ → ℕ} (he : hll.encoding = .sparse) :
    HasRegs hll regs ↔ SparseRegs hll.registers.bytes regs := by
  rw [HasRegs, he]

theorem HasRegs.dense {hll : Hll} {regs : ℕ → ℕ} (he : hll.encoding = .dense) :
    HasRegs hll regs ↔ hll.registers.len = hllDenseSize ∧
      ∀ r, r < hllRegisters → hllDenseGetRegister hll.registers.bytes r = regs r := by
  rw [HasRegs, he]

/-- Dense registers, bit by bit. -/
theorem forall_register_iff {p : List Byte} {regs : ℕ → ℕ} (hlt : ∀ r, r < hllRegisters → regs r < 64) :
    (∀ r, r < hllRegisters → hllDenseGetRegister p r = regs r) ↔
      ∀ i, i < 6 * hllRegisters → bitAt p i = packedBit regs i := by
  constructor
  · intro h i hi
    rw [packedBit, ← h _ (by omega), testBit_hllDenseGetRegister, decide_eq_true (by omega),
      Bool.true_and, Nat.div_add_mod]
  · intro h r hr
    refine Nat.eq_of_testBit_eq fun t => ?_
    rw [testBit_hllDenseGetRegister]
    by_cases ht : t < 6
    · rw [h _ (by omega), packedBit, show (6 * r + t) / 6 = r by omega,
        show (6 * r + t) % 6 = t by omega]
      simp [ht]
    · have hlt' : regs r < 2 ^ 6 := hlt r hr
      rw [Nat.testBit_lt_two_pow (lt_of_lt_of_le hlt'
        (Nat.pow_le_pow_right (show 0 < 2 by decide) (not_lt.1 ht)))]
      simp [ht]

theorem Opcode.value_le : ∀ o : Opcode, o.value ≤ hllSparseValMaxValue
  | zero _ | xzero _ => by simp [value]
  | val v _ => by simp only [value, hllSparseValMaxValue]; omega

theorem Opcode.run_lt : ∀ o : Opcode, o.run < 16384
  | zero n | xzero n | val _ n => by simp only [run]; omega

/-- The values of the sparse encoding are small. -/
theorem SparseRegs.le {bytes : List Byte} {regs : ℕ → ℕ} (h : SparseRegs bytes regs) {r : ℕ}
    (hr : r < hllRegisters) : regs r ≤ hllSparseValMaxValue := by
  obtain ⟨ops, -, hl, hregs⟩ := h
  rw [← hregs r hr, ofRegs, List.getD_eq_getElem _ _ (by omega)]
  obtain ⟨o, -, ho⟩ := List.mem_flatMap.1 (List.getElem_mem (show r < (expand ops).length by omega))
  rw [List.eq_of_mem_replicate ho]
  exact o.value_le

/-! ## Dense counters -/

/-- Adding to dense registers leaves the bits behind them alone. -/
theorem hllDenseAdd_tail {p : List Byte} (hp : p.length = hllDenseSize) (hash : BitVec 64) {i : ℕ}
    (hi : 6 * hllRegisters ≤ i) : bitAt (hllDenseAdd p hash).1 i = bitAt p i := by
  have := hllPatLen_index_lt hash
  rw [(hllDenseAdd_spec hp hash).2.2, if_neg (by omega)]

/-- Adding to dense registers. -/
theorem hllDenseAdd_regs {p : List Byte} {regs : ℕ → ℕ} (hp : p.length = hllDenseSize)
    (hr : ∀ r, r < hllRegisters → hllDenseGetRegister p r = regs r) (hash : BitVec 64) :
    (hllDenseAdd p hash).2 = decide (regs (hllEntry hash).1 < (hllEntry hash).2) ∧
      ∀ r, r < hllRegisters →
        hllDenseGetRegister (hllDenseAdd p hash).1 r = raise regs (hllEntry hash) r := by
  obtain ⟨-, hu, hb⟩ := hllDenseAdd_spec hp hash
  have hidx := hllPatLen_index_lt hash
  refine ⟨by rw [hu, hr _ hidx]; rfl, fun r hlt => ?_⟩
  rw [raise_apply, hllEntry]
  split_ifs with h
  · subst h
    refine Nat.eq_of_testBit_eq fun t => ?_
    rw [testBit_hllDenseGetRegister, hb, hr _ hidx]
    by_cases ht : t < 6
    · rw [if_pos (by omega), Nat.add_sub_cancel_left, decide_eq_true ht, Bool.true_and]
    · have hmax : max (regs (hllPatLen hash).2) (hllPatLen hash).1 < 2 ^ 6 :=
        max_lt (by rw [← hr _ hidx]; exact hllDenseGetRegister_lt _ _) (hllPatLen_lt hash)
      rw [Nat.testBit_lt_two_pow (lt_of_lt_of_le hmax
        (Nat.pow_le_pow_right (show 0 < 2 by decide) (not_lt.1 ht)))]
      simp [ht]
  · rw [← hr r hlt]
    exact hllDenseGetRegister_congr fun i h1 h2 => by rw [hb, if_neg (by omega)]

theorem hllSparseToDense_regs {hll : Hll} {regs : ℕ → ℕ} (h : HasRegs hll regs) :
    ∃ hll', hllSparseToDense hll = some (hll', true) ∧ hll'.encoding = .dense ∧
      HasRegs hll' regs ∧ SameStore hll hll' := by
  cases he : hll.encoding with
  | dense =>
    exact ⟨hll, by rw [hllSparseToDense, he], he, h, .refl hll⟩
  | sparse =>
    have hw := (HasRegs.sparse he).1 h
    obtain ⟨dense, hd, hl, hb⟩ := hllSparseToDense_spec he hw
    refine ⟨_, hd, rfl, ⟨hl, fun r hr => ?_⟩, ⟨rfl, .inr rfl, fun _ _ i hi => ?_⟩⟩
    swap
    · rw [hb, decide_eq_false (by omega), Bool.false_and]
    refine Nat.eq_of_testBit_eq fun t => ?_
    rw [testBit_hllDenseGetRegister, hb, packedBit]
    by_cases ht : t < 6
    · rw [show (6 * r + t) / 6 = r by omega, show (6 * r + t) % 6 = t by omega]
      simp [ht, show 6 * r + t < 6 * hllRegisters by omega]
    · have hlt : regs r < 2 ^ 6 := lt_of_le_of_lt (hw.le hr) (by decide)
      rw [Nat.testBit_lt_two_pow (lt_of_lt_of_le hlt
        (Nat.pow_le_pow_right (show 0 < 2 by decide) (not_lt.1 ht)))]
      simp [ht]

/-! ## Sparse counters -/

/-- Promotion adds the hash after the conversion; its assertion holds when the
    hash raises its register. -/
theorem hllSparsePromote_spec {hll : Hll} {regs : ℕ → ℕ} (he : hll.encoding = .sparse)
    (hw : SparseRegs hll.registers.bytes regs) {hash : BitVec 64}
    (hlt : regs (hllEntry hash).1 < (hllEntry hash).2) :
    ∃ hll', hllSparsePromote hll hash = some (hll', 1) ∧
      HasRegs hll' (raise regs (hllEntry hash)) ∧ SameStore hll hll' := by
  obtain ⟨d, hd, hde, hdr, hds⟩ := hllSparseToDense_regs ((HasRegs.sparse he).2 hw)
  obtain ⟨hlen, hregs⟩ := (HasRegs.dense hde).1 hdr
  obtain ⟨hup, hr⟩ := hllDenseAdd_regs hlen hregs hash
  rw [decide_eq_true hlt] at hup
  refine ⟨{ d with registers := { d.registers with bytes := (hllDenseAdd d.registers.bytes hash).1 } },
    ?_, (HasRegs.dense (by exact hde)).2 ⟨(hllDenseAdd_spec hlen hash).1, hr⟩,
    hds.owned, hds.addr, fun hc _ i hi => ?_⟩
  swap
  · exact (hllDenseAdd_tail hlen hash hi).trans (hds.tail hc hde i hi)
  rw [hllSparsePromote, hd]
  simp [hup]

theorem HasRegs.congr {hll : Hll} {regs regs' : ℕ → ℕ} (h : HasRegs hll regs)
    (heq : ∀ r, r < hllRegisters → regs r = regs' r) : HasRegs hll regs' := by
  cases he : hll.encoding with
  | sparse =>
    obtain ⟨ops, hb, hl, hr⟩ := (HasRegs.sparse he).1 h
    exact (HasRegs.sparse he).2 ⟨ops, hb, hl, fun r hlt => (hr r hlt).trans (heq r hlt)⟩
  | dense =>
    obtain ⟨hl, hr⟩ := (HasRegs.dense he).1 h
    exact (HasRegs.dense he).2 ⟨hl, fun r hlt => (hr r hlt).trans (heq r hlt)⟩

/-- The opcode `o` between `pre` and `post` covers register `index`, and `prev`
    is the position of an opcode before it. -/
structure Located (hll : Hll) (regs : ℕ → ℕ) (index : ℕ) (pre : List Opcode) (o : Opcode)
    (post : List Opcode) (prev : Option ℕ) : Prop where
  enc : hll.encoding = .sparse
  bytes : hll.registers.bytes = encode (pre ++ o :: post)
  covers : (expand (pre ++ o :: post)).length = hllRegisters
  regs_eq : ∀ r, r < hllRegisters → ofRegs (expand (pre ++ o :: post)) r = regs r
  first_le : (expand pre).length ≤ index
  le_last : index ≤ (expand pre).length + o.run
  prev_eq : pre = [] ∧ prev = none ∨
    ∃ pre₁ pre₂, pre = pre₁ ++ pre₂ ∧ prev = some (encode pre₁).length

namespace Located

variable {hll : Hll} {regs : ℕ → ℕ} {index : ℕ} {pre : List Opcode} {o : Opcode}
  {post : List Opcode} {prev : Option ℕ} (L : Located hll regs index pre o post prev)

include L

theorem index_lt : index < hllRegisters := by
  have h1 := L.covers
  have h2 := L.le_last
  rw [expand_append, expand_cons, List.length_append, List.length_append, o.length_regs] at h1
  omega

theorem value_eq : regs index = o.value := by
  rw [← L.regs_eq _ L.index_lt, ofRegs_expand L.first_le L.le_last]

theorem ne_nil : hll.registers.bytes ≠ [] := by
  rw [L.bytes]; simp [o.bytes_ne_nil]

theorem head {b : Byte} {bs : List Byte} (h : o.bytes = b :: bs) :
    hll.registers.bytes.getD (encode pre).length 0 = b := by
  rw [L.bytes, encode_append, encode_cons, h]; simp

theorem take : hll.registers.bytes.take (encode pre).length = encode pre := by
  rw [L.bytes, encode_append, List.take_left]

theorem drop : hll.registers.bytes.drop ((encode pre).length + o.bytes.length) = encode post := by
  rw [L.bytes, encode_append, encode_cons, ← List.append_assoc, ← List.length_append,
    List.drop_left]

/-- Storing new opcodes for the located run. -/
theorem store {seq : List Opcode} {count : ℕ} (hv : o.value < count)
    (hs : expand seq = o.regs.set (index - (expand pre).length) count) :
    ∃ hll', hllSparseUpdated hll (encode pre ++ encode seq ++ encode post) prev = (hll', 1) ∧
      HasRegs hll' (raise regs (index, count)) ∧ SameStore hll hll' := by
  obtain ⟨ops', hu, hx⟩ := hllSparseUpdated_spec hll
    (show encode pre ++ encode seq ++ encode post = encode (pre ++ (seq ++ post)) by simp) L.prev_eq
  rw [← List.append_assoc, expand_set L.first_le L.le_last hs] at hx
  refine ⟨_, hu, (HasRegs.sparse (by exact L.enc)).2 ⟨ops', rfl, ?_, fun r hlt => ?_⟩,
    rfl, .inl rfl, fun _ h => absurd (L.enc.symm.trans h) (by decide)⟩
  · rw [hx, List.length_set, L.covers]
  · have hi := L.index_lt
    rw [hx, ofRegs_set (by rw [L.covers]; exact hi), raise, L.value_eq, max_eq_right (le_of_lt hv)]
    by_cases hri : r = index
    · subst hri; simp
    · rw [Function.update_of_ne hri, Function.update_of_ne hri, L.regs_eq r hlt]

/-- An opcode for one register is replaced by one of the same length. -/
theorem single {count : ℕ} (hc : count ≤ hllSparseValMaxValue) (hrun : o.run = 0)
    (hlen : o.bytes.length = 1) (hv : o.value < count) :
    ∃ hll', hllSparseUpdated hll
        (splice hll.registers.bytes (encode pre).length (hllSparseValSet count 1)) prev = (hll', 1) ∧
      HasRegs hll' (raise regs (index, count)) ∧ SameStore hll hll' := by
  obtain ⟨o', ho, hr⟩ := hllSparseValSet_bytes _ _ (Nat.zero_lt_of_lt hv) hc (show 0 < 1 by decide)
    (by decide)
  have h1 := L.first_le
  have h2 := L.le_last
  have hlen' : o'.bytes.length = o.bytes.length := by rw [← ho, hlen]; rfl
  have hx : expand [o'] = o.regs.set (index - (expand pre).length) count := by
    rw [show index - (expand pre).length = 0 by omega, Opcode.regs, hrun, expand_cons, hr]; rfl
  have hst := L.store hv hx
  rw [splice, L.take, ho, hlen', L.drop]
  simpa using hst

/-- An opcode for a run is split, or the counter is promoted for lack of room. -/
theorem split (write : ℕ → List Byte) {hash : BitVec 64}
    (hc : (hllEntry hash).2 ≤ hllSparseValMaxValue) (hi : (hllEntry hash).1 = index)
    (hv : o.value < (hllEntry hash).2)
    (hw : ∀ len, 0 < len → len ≤ o.run →
      ∃ o' : Opcode, write len = o'.bytes ∧ o'.regs = List.replicate len o.value) :
    ∃ hll', (if (hllSparseSplit write (hllEntry hash).2 index (expand pre).length
          ((expand pre).length + o.run)).length > o.bytes.length ∧
        hll.registers.bytes.length > hllSparseMaxBytes then hllSparsePromote hll hash
      else some (hllSparseUpdated hll (hll.registers.bytes.take (encode pre).length ++
        hllSparseSplit write (hllEntry hash).2 index (expand pre).length
          ((expand pre).length + o.run) ++
        hll.registers.bytes.drop ((encode pre).length + o.bytes.length)) prev)) =
      some (hll', 1) ∧ HasRegs hll' (raise regs (hllEntry hash)) ∧ SameStore hll hll' := by
  split_ifs
  · refine hllSparsePromote_spec L.enc ⟨_, L.bytes, L.covers, L.regs_eq⟩ ?_
    rw [hi, L.value_eq]; exact hv
  · obtain ⟨seq, hseq, hx⟩ := hllSparseSplit_spec hw (Nat.zero_lt_of_lt hv) hc L.first_le L.le_last
    obtain ⟨hll', hu, hres⟩ := L.store hv hx
    refine ⟨hll', by rw [L.take, hseq, L.drop, hu], ?_⟩
    rwa [← hi] at hres

end Located

theorem exists_located {hll : Hll} {regs : ℕ → ℕ} {index : ℕ} (he : hll.encoding = .sparse)
    (hw : SparseRegs hll.registers.bytes regs) (hi : index < hllRegisters) :
    ∃ pre o post prev, Located hll regs index pre o post prev ∧
      hllSparseLocate index hll.registers.bytes 0 0 none =
        some ⟨(encode pre).length, (expand pre).length, o.run + 1, prev⟩ := by
  obtain ⟨ops, hb, hl, hr⟩ := hw
  obtain ⟨pre, o, post, prev, rfl, hloc, h1, h2, hp⟩ := hllSparseLocate_spec ops 0 0 none
    (Nat.zero_le index) (by omega)
  simp only [Nat.zero_add] at hloc h1 h2 hp
  have hprev : pre = [] ∧ prev = none ∨
      ∃ pre₁ pre₂, pre = pre₁ ++ pre₂ ∧ prev = some (encode pre₁).length :=
    hp.imp id fun ⟨pre₁, q, h⟩ => ⟨pre₁, [q], h⟩
  exact ⟨pre, o, post, prev, ⟨he, hb, hl, hr, h1, h2, hprev⟩, by rw [hb, hloc]⟩

/-- **Adding to a sparse counter** raises one register; the counter may have
    become dense. -/
theorem hllSparseAdd_spec {hll : Hll} {regs : ℕ → ℕ} (he : hll.encoding = .sparse)
    (hw : SparseRegs hll.registers.bytes regs) (hash : BitVec 64) :
    ∃ hll', hllSparseAdd hll hash =
        some (hll', if regs (hllEntry hash).1 < (hllEntry hash).2 then 1 else 0) ∧
      HasRegs hll' (raise regs (hllEntry hash)) ∧ SameStore hll hll' := by
  have hi : (hllEntry hash).1 < hllRegisters := hllPatLen_index_lt hash
  have hc0 : 0 < (hllEntry hash).2 := hllPatLen_pos hash
  have hsmall := hw.le hi
  rw [hllSparseAdd, show hllPatLen hash = ((hllEntry hash).2, (hllEntry hash).1) from rfl]
  dsimp only
  by_cases hbig : (hllEntry hash).2 > hllSparseValMaxValue
  · rw [if_pos hbig, if_pos (by omega)]
    exact hllSparsePromote_spec he hw (by omega)
  have hc := not_lt.1 hbig
  obtain ⟨pre, o, post, prev, L, hloc⟩ := exists_located he hw hi
  rw [if_neg hbig, if_neg L.ne_nil, hloc, L.value_eq]
  simp only [Option.bind_eq_bind, Option.bind_some, Nat.add_succ_sub_one]
  have hsplit := fun (write : ℕ → List Byte) => L.split write hc rfl
  have hsingle := fun h => L.single hc h
  have hzeros : ∀ len, 0 < len → len ≤ o.run →
      ∃ o' : Opcode, hllSparseZeros len = o'.bytes ∧ o'.regs = List.replicate len 0 :=
    fun len h0 hle => hllSparseZeros_bytes h0 (by have := o.run_lt; omega)
  cases o with
  | zero n =>
    obtain ⟨b, hb, h1, h2, h3, -⟩ := zero_bytes n
    rw [Opcode.value] at hsplit ⊢
    simp only [L.head hb, h1, h2, h3, hb, Bool.false_eq_true, false_and, true_and, if_false,
      true_or, if_true, List.length_singleton] at hsplit ⊢
    rw [if_pos hc0]
    by_cases hrun : (Opcode.zero n).run + 1 = 1
    · rw [if_pos hrun]
      exact (hsingle (by omega) (by rw [hb]; rfl) hc0).imp fun _ h => ⟨by rw [h.1], h.2⟩
    · rw [if_neg hrun]
      exact hsplit _ hc0 hzeros
  | xzero n =>
    obtain ⟨b, b1, hb, h1, h2, h3, -⟩ := xzero_bytes n
    rw [Opcode.value] at hsplit ⊢
    simp only [L.head hb, h1, h2, h3, hb, Bool.false_eq_true, false_and, if_false, or_true,
      if_true, List.length_cons, List.length_nil] at hsplit ⊢
    rw [if_pos hc0]
    exact hsplit _ hc0 hzeros
  | val v n =>
    obtain ⟨b, hb, h1, h2, h3, h4, h5⟩ := val_bytes v n
    have hval : regs (hllEntry hash).1 = v + 1 := L.value_eq
    rw [Opcode.value] at hsplit ⊢
    simp only [L.head hb, h1, h2, h3, h4, hb, Bool.false_eq_true, true_and, false_and, if_false,
      or_self, List.length_singleton] at hsplit ⊢
    by_cases hge : ↑v + 1 ≥ (hllEntry hash).2
    · rw [if_pos hge, if_neg (by omega)]
      refine ⟨hll, rfl, ((HasRegs.sparse he).2 hw).congr fun r _ => ?_, .refl hll⟩
      rw [raise_apply]
      split_ifs with hr
      · rw [hr, hval, max_eq_left hge]
      · rfl
    · have hlt := not_le.1 hge
      rw [if_neg hge, if_pos hlt]
      by_cases hrun : (Opcode.val v n).run + 1 = 1
      · rw [if_pos hrun]
        exact (hsingle (by omega) (by rw [hb]; rfl) hlt).imp fun _ h => ⟨by rw [h.1], h.2⟩
      · rw [if_neg hrun]
        refine hsplit _ hlt fun len h0 hle => ?_
        have hn : (Opcode.val v n).run ≤ 3 := by simp only [Opcode.run]; omega
        exact hllSparseValSet_bytes _ _ (by omega) (by omega) h0 (by omega)

/-! ## Commands -/

/-- Only the cache flag is left to do after the registers are updated. -/
theorem exists_card (hll : Hll) (updated : ℤ) : ∃ card : BitVec 64,
    (if updated ≠ 0 then some (hll.invalidateCache, updated) else some (hll, updated)) =
      some ({ hll with card := card }, updated) := by
  split_ifs
  exacts [⟨_, rfl⟩, ⟨_, rfl⟩]

/-- Adding to a dense counter, as an equation. -/
theorem hllAdd_dense {hll : Hll} (he : hll.encoding = .dense) (hash : BitVec 64) :
    ∃ card, hllAdd hll hash = some ({ hll with card := card, registers := { hll.registers with
        bytes := (hllDenseAdd hll.registers.bytes hash).1 } },
      if (hllDenseAdd hll.registers.bytes hash).2 then 1 else 0) := by
  obtain ⟨card, hc⟩ := exists_card { hll with registers := { hll.registers with
    bytes := (hllDenseAdd hll.registers.bytes hash).1 } }
    (if (hllDenseAdd hll.registers.bytes hash).2 then 1 else 0)
  refine ⟨card, ?_⟩
  rw [hllAdd, he]
  simp only [Option.bind_eq_bind, Option.bind_some, he] at hc ⊢
  exact hc

/-- **`hllAdd` raises one register**, and returns 1 exactly when the register
    grew. -/
theorem hllAdd_spec {hll : Hll} {regs : ℕ → ℕ} (h : HasRegs hll regs) (hash : BitVec 64) :
    ∃ hll', hllAdd hll hash =
        some (hll', if regs (hllEntry hash).1 < (hllEntry hash).2 then 1 else 0) ∧
      HasRegs hll' (raise regs (hllEntry hash)) ∧ SameStore hll hll' := by
  cases he : hll.encoding with
  | dense =>
    obtain ⟨hlen, hregs⟩ := (HasRegs.dense he).1 h
    obtain ⟨hup, hr⟩ := hllDenseAdd_regs hlen hregs hash
    obtain ⟨card, ha⟩ := hllAdd_dense he hash
    simp only [hup, decide_eq_true_eq] at ha
    exact ⟨_, ha, (HasRegs.dense (by exact he)).2 ⟨(hllDenseAdd_spec hlen hash).1, hr⟩,
      rfl, .inl rfl, fun h _ i hi => (hllDenseAdd_tail hlen hash hi).trans (h he i hi)⟩
  | sparse =>
    obtain ⟨hll', ha, hr, hs⟩ := hllSparseAdd_spec he ((HasRegs.sparse he).1 h) hash
    obtain ⟨card, hc⟩ := exists_card hll'
      (if regs (hllEntry hash).1 < (hllEntry hash).2 then 1 else 0)
    refine ⟨{ hll' with card := card }, ?_, hr, hs.owned, hs.addr, hs.tail⟩
    rw [hllAdd, he]
    simp only [ha, Option.bind_eq_bind, Option.bind_some]
    exact hc

theorem hllInit_regs : HasRegs hllInit fun _ => 0 := by
  refine (HasRegs.sparse rfl).2 ⟨[.xzero ⟨16383, by decide⟩], rfl, by simp [Opcode.run, hllRegisters],
    fun r _ => ?_⟩
  rw [ofRegs, List.getD_eq_getElem?_getD, expand_cons, expand_nil, List.append_nil, Opcode.regs,
    List.getElem?_replicate]
  split_ifs <;> rfl

/-- Add a sequence of hashes. -/
def hllAddAll (hll : Hll) (hashes : List (BitVec 64)) : Option Hll :=
  hashes.foldlM (fun hll hash => (hllAdd hll hash).map Prod.fst) hll

/-- **The registers after a sequence of additions.** -/
theorem hllAddAll_spec : ∀ (hashes : List (BitVec 64)) {hll : Hll} {regs : ℕ → ℕ},
    HasRegs hll regs → ∃ hll', hllAddAll hll hashes = some hll' ∧
      HasRegs hll' (addAll regs (hashes.map hllEntry)) ∧ SameStore hll hll'
  | [], hll, regs, h => ⟨hll, rfl, h, .refl hll⟩
  | hash :: hashes, hll, regs, h => by
    obtain ⟨hll₁, ha, h₁, hs₁⟩ := hllAdd_spec h hash
    obtain ⟨hll', hb, h', hs'⟩ := hllAddAll_spec hashes h₁
    refine ⟨hll', ?_, h', hs₁.trans hs'⟩
    rw [hllAddAll, List.foldlM_cons, ha]
    exact hb

/-- The registers of a counter as `hllSparseToDense` decodes them. -/
def Hll.register (hll : Hll) (r : ℕ) : ℕ :=
  match hllSparseToDense hll with
  | some (dense, true) => hllDenseGetRegister dense.registers.bytes r
  | _ => 0

theorem HasRegs.register_eq {hll : Hll} {regs : ℕ → ℕ} (h : HasRegs hll regs) {r : ℕ}
    (hr : r < hllRegisters) : hll.register r = regs r := by
  obtain ⟨d, hd, he, hdr, -⟩ := hllSparseToDense_regs h
  rw [Hll.register, hd]
  exact ((HasRegs.dense he).1 hdr).2 r hr

theorem HasRegs.lt {hll : Hll} {regs : ℕ → ℕ} (h : HasRegs hll regs) {r : ℕ}
    (hr : r < hllRegisters) : regs r < 64 := by
  obtain ⟨d, -, he, hdr, -⟩ := hllSparseToDense_regs h
  rw [← ((HasRegs.dense he).1 hdr).2 r hr]
  exact hllDenseGetRegister_lt _ _

/-- **Merging is a bitwise or of the registers.** -/
theorem hllMerge_spec {dst src : Hll} {a b : ℕ → ℕ} (hd : HasRegs dst a) (hs : HasRegs src b)
    (had : dst.registers.addr % sizeofSizeT = 0) (has : src.registers.addr % sizeofSizeT = 0) :
    ∃ dst' src', hllMerge dst src = some (dst', src') ∧ HasRegs dst' (fun r => a r ||| b r) ∧
      HasRegs src' b ∧ dst'.registersOwned = dst.registersOwned ∧
      dst'.registers.addr % sizeofSizeT = 0 ∧ (dst.CleanTail → src.CleanTail → dst'.CleanTail) ∧
      SameStore src src' := by
  obtain ⟨s, h1, hse, hsr, hss⟩ := hllSparseToDense_regs hs
  obtain ⟨d, h2, hde, hdr, hds⟩ := hllSparseToDense_regs hd
  have hor := byteSliceBitwiseOr_eq (t := d.registers) (o := s.registers)
    (by rw [hds.aligned had, hss.aligned has])
  refine ⟨{ d with registers := { d.registers with
    bytes := orBytes d.registers.bytes s.registers.bytes }, card := -1 }, s, ?_, ?_, hsr,
    hds.owned, hds.aligned had, fun htd hts _ i hi => ?_, hss⟩
  · rw [hllMerge, h1]
    simp only [Option.bind_eq_bind, Option.bind_some, h2]
    rw [if_pos ⟨hse, hde⟩, hor]
    rfl
  · obtain ⟨hdl, hdr⟩ := (HasRegs.dense hde).1 hdr
    obtain ⟨-, hsr⟩ := (HasRegs.dense hse).1 hsr
    have hdl' : d.registers.bytes.length = hllDenseSize := hdl
    refine (HasRegs.dense (by exact hde)).2 ⟨(length_orBytes _ _).trans hdl, fun r hr => ?_⟩
    have hin : 6 * r + 6 ≤ 8 * d.registers.bytes.length := by
      rw [hdl']; unfold hllDenseSize hllRegisters hllBits at *; omega
    change hllDenseGetRegister (orBytes _ _) r = _
    rw [hllDenseGetRegister_orBytes hin, hdr r hr, hsr r hr]
  · change bitAt (orBytes _ _) i = _
    rw [bitAt_orBytes, hds.tail htd hde i hi, hss.tail hts hse i hi]
    simp

/-! ## Merging two runs -/

theorem or_eq_right_iff_and {a b : ℕ} : a ||| b = b ↔ a &&& b = a := by
  constructor
  · intro h
    rw [← h]
    refine Nat.eq_of_testBit_eq fun i => ?_
    rw [Nat.testBit_and, Nat.testBit_or, Bool.and_or_distrib_left, Bool.and_self,
      Bool.or_eq_left_iff_imp]
    intro h'
    exact (Bool.and_eq_true_iff.1 h').1
  · intro h
    rw [← h]
    refine Nat.eq_of_testBit_eq fun i => ?_
    rw [Nat.testBit_or, Nat.testBit_and]
    cases b.testBit i <;> simp

/-- A bitwise or is the maximum when the digits of the smaller number are among
    those of the larger one. -/
theorem or_eq_max_iff {a b : ℕ} : a ||| b = max a b ↔ a &&& b = min a b := by
  rcases le_total a b with h | h
  · rw [max_eq_right h, min_eq_left h, or_eq_right_iff_and]
  · rw [max_eq_left h, min_eq_right h, Nat.or_comm, Nat.and_comm, or_eq_right_iff_and]

/-- The counters of two sequences of hashes, the one of both sequences, and the
    merged one. -/
theorem hllMerge_run (A B : List (BitVec 64)) :
    ∃ dst src both dst' src', hllAddAll hllInit A = some dst ∧ hllAddAll hllInit B = some src ∧
      hllAddAll hllInit (A ++ B) = some both ∧ hllMerge dst src = some (dst', src') ∧
      ∀ r, r < hllRegisters → dst.register r = ofList (A.map hllEntry) r ∧
        src.register r = ofList (B.map hllEntry) r ∧
        both.register r = max (dst.register r) (src.register r) ∧
        dst'.register r = dst.register r ||| src.register r := by
  obtain ⟨dst, hd, hdr, hds⟩ := hllAddAll_spec A hllInit_regs
  obtain ⟨src, hs, hsr, hss⟩ := hllAddAll_spec B hllInit_regs
  obtain ⟨both, hb, hbr, -⟩ := hllAddAll_spec (A ++ B) hllInit_regs
  obtain ⟨dst', src', hm, hmr, -⟩ := hllMerge_spec hdr hsr (hds.aligned rfl) (hss.aligned rfl)
  refine ⟨dst, src, both, dst', src', hd, hs, hb, hm, fun r hr => ?_⟩
  rw [hdr.register_eq hr, hsr.register_eq hr, hbr.register_eq hr, hmr.register_eq hr]
  refine ⟨rfl, rfl, ?_, rfl⟩
  rw [List.map_append]
  exact ofList_append _ _ r

/-- **When merging is the maximum.**  The merged registers are the maxima, and
    so those of a counter with both sequences, exactly when in each register
    the digits of the smaller value are among those of the larger one. -/
theorem hllMerge_max_iff (A B : List (BitVec 64)) :
    ∃ dst src both dst' src', hllAddAll hllInit A = some dst ∧ hllAddAll hllInit B = some src ∧
      hllAddAll hllInit (A ++ B) = some both ∧ hllMerge dst src = some (dst', src') ∧
      ((∀ r, r < hllRegisters → dst'.register r = max (dst.register r) (src.register r) ∧
          dst'.register r = both.register r) ↔
        ∀ r, r < hllRegisters →
          dst.register r &&& src.register r = min (dst.register r) (src.register r)) := by
  obtain ⟨dst, src, both, dst', src', hd, hs, hb, hm, hr⟩ := hllMerge_run A B
  refine ⟨dst, src, both, dst', src', hd, hs, hb, hm, forall_congr' fun r => forall_congr' fun h => ?_⟩
  obtain ⟨-, -, hboth, hor⟩ := hr r h
  rw [hboth, and_self_iff, hor, or_eq_max_iff]

/-- Pattern lengths 1 and 2 for register 0 are merged to 3. -/
theorem hllMerge_not_max :
    ∃ dst src dst' src', hllAddAll hllInit [0x4000#64] = some dst ∧
      hllAddAll hllInit [0x8000#64] = some src ∧ hllMerge dst src = some (dst', src') ∧
      dst.register 0 = 1 ∧ src.register 0 = 2 ∧ dst'.register 0 = 3 := by
  obtain ⟨dst, src, both, dst', src', hd, hs, -, hm, hr⟩ := hllMerge_run [0x4000#64] [0x8000#64]
  obtain ⟨h1, h2, -, h3⟩ := hr 0 (by decide)
  have he1 : ofList ([0x4000#64].map hllEntry) 0 = 1 := by decide
  have he2 : ofList ([0x8000#64].map hllEntry) 0 = 2 := by decide
  rw [he1] at h1
  rw [he2] at h2
  exact ⟨dst, src, dst', src', hd, hs, hm, h1, h2, by rw [h3, h1, h2]; rfl⟩

end Honas

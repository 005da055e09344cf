/-
  What `hllCount` depends on.

  `hllDenseSum` and `hllSparseSum` compute the same two numbers of the registers:
  the sum of `2^-reg` and the number of zero registers.  `hllCount` returns an
  estimate from these numbers, or the cached cardinality if its most significant
  bit is clear.

  `hllCalls_count`: after any calls, the result is the estimate from the current
  registers, so two counters with the same registers give the same result.
-/
import Honas.HyperloglogRuns

namespace Honas

open Bits MaxSketch

/-! ## The sums of the registers -/

/-- The sum of `2^-reg` over all registers, and the number of zero registers. -/
def regsSums (regs : ℕ → ℕ) : ℚ × ℕ :=
  (∑ r ∈ Finset.range hllRegisters, hllPE (regs r),
    ∑ r ∈ Finset.range hllRegisters, if regs r = 0 then 1 else 0)

theorem regsSums_congr {regs regs' : ℕ → ℕ} (h : ∀ r < hllRegisters, regs r = regs' r) :
    regsSums regs = regsSums regs' := by
  have hsum : ∀ {M : Type} [AddCommMonoid M] (f : ℕ → M),
      ∑ r ∈ Finset.range hllRegisters, f (regs r) = ∑ r ∈ Finset.range hllRegisters, f (regs' r) :=
    fun f => Finset.sum_congr rfl fun r hr => congrArg f (h r (Finset.mem_range.1 hr))
  rw [regsSums, regsSums, hsum hllPE, hsum fun v => if v = 0 then 1 else 0]

theorem count_zero_eq_sum (l : List ℕ) : l.count 0 = (l.map fun v => if v = 0 then 1 else 0).sum := by
  induction l with
  | nil => rfl
  | cons a l ih =>
    rw [List.count_cons, ih, List.map_cons, List.sum_cons, add_comm]
    simp only [beq_iff_eq]

/-- The sums of the registers in a list. -/
theorem regsSums_ofRegs {l : List ℕ} (h : l.length = hllRegisters) :
    regsSums (ofRegs l) = ((l.map hllPE).sum, l.count 0) := by
  have hsum : ∀ {M : Type} [AddCommMonoid M] (f : ℕ → M) (l : List ℕ),
      ∑ r ∈ Finset.range l.length, f (ofRegs l r) = (l.map f).sum := by
    intro M _ f l
    induction l with
    | nil => rfl
    | cons a l ih =>
      rw [List.length_cons, Finset.sum_range_succ', add_comm, List.map_cons, List.sum_cons, ← ih]
      rfl
  rw [regsSums, ← h, hsum hllPE, hsum fun v => if v = 0 then 1 else 0, count_zero_eq_sum]

/-! ## Dense counters -/

/-- The bits of the second byte that the mask cuts off. -/
theorem or_shiftLeft_and_registerMax (a b : ℕ) {k : ℕ} (hk : 6 ≤ k) :
    (a ||| b <<< k) &&& 63 = a &&& 63 := by
  refine Nat.eq_of_testBit_eq fun t => ?_
  rw [Nat.testBit_and, Nat.testBit_and, Nat.testBit_or, Nat.testBit_shiftLeft]
  have hmask : Nat.testBit 63 t = decide (t < 6) := testBit_registerMax t
  rw [hmask]
  by_cases ht : t < 6
  · rw [decide_eq_false (show ¬ k ≤ t by omega), Bool.false_and, Bool.or_false]
  · rw [decide_eq_false ht, Bool.and_false, Bool.and_false]

/-- **An iteration of `hllDenseSum`** reads sixteen registers. -/
theorem hllDenseGroup_eq (p : List Byte) (j : ℕ) :
    hllDenseGroup (fun i => (p.getD (12 * j + i) 0).toNat) =
      (List.range 16).map fun k => hllDenseGetRegister p (16 * j + k) := by
  have hreg : ∀ {k q fb : ℕ}, (16 * j + k) * 6 = 8 * (12 * j + q) + fb → fb < 8 →
      hllDenseGetRegister p (16 * j + k) = ((p.getD (12 * j + q) 0).toNat >>> fb |||
        (p.getD (12 * j + (q + 1)) 0).toNat <<< (8 - fb)) &&& 63 := by
    intro k q fb h hfb
    have hq : (16 * j + k) * hllBits / 8 = 12 * j + q := by unfold hllBits; omega
    have hr : (16 * j + k) * hllBits % 8 = fb := by unfold hllBits; omega
    rw [hllDenseGetRegister, hq, hr]
    rfl
  have hlow : ∀ {k q fb : ℕ}, (16 * j + k) * 6 = 8 * (12 * j + q) + fb → fb ≤ 2 →
      hllDenseGetRegister p (16 * j + k) = (p.getD (12 * j + q) 0).toNat >>> fb &&& 63 := by
    intro k q fb h hfb
    rw [hreg h (by omega), or_shiftLeft_and_registerMax _ _ (by omega)]
  have hblock : ∀ {k q : ℕ}, (16 * j + k) * 6 = 8 * (12 * j + q) →
      [(p.getD (12 * j + q) 0).toNat &&& 63,
        ((p.getD (12 * j + q) 0).toNat >>> 6 ||| (p.getD (12 * j + (q + 1)) 0).toNat <<< 2) &&& 63,
        ((p.getD (12 * j + (q + 1)) 0).toNat >>> 4 |||
          (p.getD (12 * j + (q + 2)) 0).toNat <<< 4) &&& 63,
        (p.getD (12 * j + (q + 2)) 0).toNat >>> 2 &&& 63] =
      [hllDenseGetRegister p (16 * j + k), hllDenseGetRegister p (16 * j + (k + 1)),
        hllDenseGetRegister p (16 * j + (k + 2)), hllDenseGetRegister p (16 * j + (k + 3))] := by
    intro k q h
    have h0 := hlow (show (16 * j + k) * 6 = 8 * (12 * j + q) + 0 by omega) (by decide)
    have h1 := hreg (show (16 * j + (k + 1)) * 6 = 8 * (12 * j + q) + 6 by omega) (by decide)
    have h2 := hreg (show (16 * j + (k + 2)) * 6 = 8 * (12 * j + (q + 1)) + 4 by omega) (by decide)
    have h3 := hlow (show (16 * j + (k + 3)) * 6 = 8 * (12 * j + (q + 2)) + 2 by omega) (by decide)
    rw [h0, h1, h2, h3, Nat.shiftRight_zero]
  have h0 := hblock (show (16 * j + 0) * 6 = 8 * (12 * j + 0) by omega)
  have h4 := hblock (show (16 * j + 4) * 6 = 8 * (12 * j + 3) by omega)
  have h8 := hblock (show (16 * j + 8) * 6 = 8 * (12 * j + 6) by omega)
  have h12 := hblock (show (16 * j + 12) * 6 = 8 * (12 * j + 9) by omega)
  exact congrArg₂ (· ++ ·) h0 (congrArg₂ (· ++ ·) h4 (congrArg₂ (· ++ ·) h8 h12))

/-- **`hllDenseSum` sums the registers.** -/
theorem hllDenseSum_eq (p : List Byte) : hllDenseSum p = regsSums (hllDenseGetRegister p) := by
  have hfold : ∀ n, (List.range n).foldl (fun (s : ℚ × ℕ) j =>
      let group := hllDenseGroup fun i => (p.getD (12 * j + i) 0).toNat
      (s.1 + (group.map hllPE).sum, s.2 + group.count 0)) (0, 0) =
      (∑ r ∈ Finset.range (16 * n), hllPE (hllDenseGetRegister p r),
        ∑ r ∈ Finset.range (16 * n), if hllDenseGetRegister p r = 0 then 1 else 0) := by
    intro n
    induction n with
    | zero => rfl
    | succ n ih =>
      rw [List.range_succ, List.foldl_append, ih]
      dsimp only [List.foldl_cons, List.foldl_nil]
      rw [hllDenseGroup_eq, count_zero_eq_sum, List.map_map, List.map_map, Nat.mul_succ,
        Finset.sum_range_add, Finset.sum_range_add]
      rfl
  exact hfold 1024

/-! ## Sparse counters -/

/-- One opcode: what it adds to the sums. -/
theorem hllSparseSum_step (o : Opcode) (rest : List Byte) (E : ℚ) (ez idx : ℕ) :
    hllSparseSum (o.bytes ++ rest) E ez idx =
      if o.value = 0 then hllSparseSum rest E (ez + (o.run + 1)) (idx + (o.run + 1))
      else hllSparseSum rest (E + hllPE o.value * (o.run + 1 : ℕ)) ez (idx + (o.run + 1)) := by
  cases o with
  | zero n =>
    obtain ⟨b, hb, h1, -, -, h4⟩ := zero_bytes n
    rw [hb, List.singleton_append, hllSparseSum.eq_def]
    dsimp only
    rw [if_pos h1, h4]
    rfl
  | xzero n =>
    obtain ⟨b, b1, hb, h1, h2, -, h4⟩ := xzero_bytes n
    rw [hb, List.cons_append, List.singleton_append, hllSparseSum, if_neg (by simp [h1]), if_pos h2]
    simp only [h4]
    rfl
  | val v n =>
    obtain ⟨b, hb, h1, h2, -, h4, h5⟩ := val_bytes v n
    rw [hb, List.singleton_append, hllSparseSum.eq_def]
    dsimp only
    rw [if_neg (by simp [h1]), if_neg (by simp [h2]), h4, h5]
    rfl

/-- **`hllSparseSum` sums the registers of the opcodes.** -/
theorem hllSparseSum_encode : ∀ (ops : List Opcode) (E : ℚ) (ez idx : ℕ),
    hllSparseSum (encode ops) E ez idx = (E + ez + ((expand ops).map hllPE).sum,
      ez + (expand ops).count 0, idx + (expand ops).length)
  | [], E, ez, idx => by
    rw [encode_nil, hllSparseSum, expand_nil, List.map_nil, List.sum_nil, add_zero]
    rfl
  | o :: ops, E, ez, idx => by
    rw [encode_cons, hllSparseSum_step, expand_cons, List.map_append, List.sum_append,
      List.count_append, List.length_append, o.length_regs, Opcode.regs, List.map_replicate,
      List.sum_replicate, nsmul_eq_mul, List.count_replicate]
    split_ifs with hv hne hne
    · rw [hllSparseSum_encode ops, hv]
      refine Prod.ext ?_ (Prod.ext ?_ ?_)
      · simp [hllPE]
        ring
      · simp only
        ring
      · simp only
        ring
    · simp [hv] at hne
    · simp [hv] at hne
    · rw [hllSparseSum_encode ops]
      refine Prod.ext ?_ (Prod.ext ?_ ?_)
      · simp only
        ring
      · simp only [zero_add]
      · simp only
        ring

/-! ## Counting -/

/-- The sum and the number of zero registers that `hllCount` uses. -/
def hllSums (hll : Hll) : ℚ × ℕ :=
  match hll.encoding with
  | .dense => hllDenseSum hll.registers.bytes
  | .sparse =>
    let (E, ez, _) := hllSparseSum hll.registers.bytes 0 0 0
    (E, ez)

theorem hllCount_eq (estimate : ℚ → ℕ → BitVec 64) (hll : Hll) : hllCount estimate hll =
    if hll.validCache then (hll, hll.card)
    else ({ hll with card := estimate (hllSums hll).1 (hllSums hll).2 },
      estimate (hllSums hll).1 (hllSums hll).2) := by
  rcases hll with ⟨card, encoding, registers, owned⟩
  unfold hllCount hllSums
  cases encoding with
  | dense =>
    dsimp only
  | sparse =>
    dsimp only

/-- **The sums depend only on the registers**, whichever encoding is in use. -/
theorem HasRegs.hllSums_eq {hll : Hll} {regs : ℕ → ℕ} (h : HasRegs hll regs) :
    hllSums hll = regsSums regs := by
  cases he : hll.encoding with
  | dense =>
    rw [hllSums, he]
    dsimp only
    rw [hllDenseSum_eq]
    exact regsSums_congr ((HasRegs.dense he).1 h).2
  | sparse =>
    obtain ⟨ops, hb, hl, hr⟩ := (HasRegs.sparse he).1 h
    rw [hllSums, he]
    dsimp only
    rw [hb, hllSparseSum_encode, ← regsSums_congr hr, regsSums_ofRegs hl, Nat.cast_zero, zero_add,
      zero_add, zero_add]

/-- The cached cardinality is that of the registers. -/
structure CountInv (estimate : ℚ → ℕ → BitVec 64) (hll : Hll) (regs : ℕ → ℕ) : Prop where
  hasRegs : HasRegs hll regs
  cache : hll.validCache → hll.card = estimate (regsSums regs).1 (regsSums regs).2

/-- `hllCount` returns the estimate, and keeps it. -/
theorem CountInv.count {estimate : ℚ → ℕ → BitVec 64} {hll : Hll} {regs : ℕ → ℕ}
    (h : CountInv estimate hll regs) :
    (hllCount estimate hll).2 = estimate (regsSums regs).1 (regsSums regs).2 ∧
      CountInv estimate (hllCount estimate hll).1 regs := by
  rw [hllCount_eq]
  split_ifs with hv
  · exact ⟨h.cache hv, h⟩
  · rw [← h.hasRegs.hllSums_eq]
    exact ⟨rfl, h.hasRegs, fun _ => by rw [h.hasRegs.hllSums_eq]⟩

@[simp] theorem validCache_invalidateCache (hll : Hll) : hll.invalidateCache.validCache = false := by
  rw [Hll.validCache, Hll.invalidateCache, beq_eq_false_iff_ne]
  intro h
  have hbit := congrArg (fun v => v.getLsbD 0) h
  simp at hbit

/-- An addition to a sparse counter that reports nothing changes nothing. -/
theorem hllSparseAdd_unchanged {hll hll' : Hll} {hash : BitVec 64}
    (h : hllSparseAdd hll hash = some (hll', 0)) : hll' = hll := by
  have hpromote : ∀ {x : Hll}, hllSparsePromote hll hash ≠ some (x, 0) := by
    intro x hx
    rw [hllSparsePromote] at hx
    obtain ⟨⟨d, ok⟩, -, hd⟩ := Option.bind_eq_some_iff.1 hx
    dsimp only at hd
    split_ifs at hd <;> simp at hd
  have hupdated : ∀ {x : Hll} {bytes : List Byte} {prev : Option ℕ},
      some (hllSparseUpdated hll bytes prev) ≠ some (x, 0) := by
    intro x bytes prev hx
    exact absurd (congrArg Prod.snd (Option.some.inj hx)) (by decide : (1 : ℤ) ≠ 0)
  rw [hllSparseAdd] at h
  dsimp only at h
  split_ifs at h
  · exact absurd h hpromote
  · exact absurd (congrArg Prod.snd (Option.some.inj h)) (by decide : (-1 : ℤ) ≠ 0)
  · obtain ⟨loc, -, hloc⟩ := Option.bind_eq_some_iff.1 h
    -- all branches but the first report 1
    split_ifs at hloc <;> first
      | exact absurd hloc hpromote
      | exact absurd hloc hupdated
      | exact (congrArg Prod.fst (Option.some.inj hloc)).symm

/-- **Every addition that changes a register clears the cache**, the others keep the
    cardinality. -/
theorem hllAdd_cache {hll hll' : Hll} {hash : BitVec 64} {updated : ℤ}
    (h : hllAdd hll hash = some (hll', updated)) :
    updated ≠ 0 ∧ hll'.validCache = false ∨ updated = 0 ∧ hll'.card = hll.card := by
  have hfinish : ∀ {x : Hll} {u : ℤ}, (u = 0 → x.card = hll.card) →
      (if u ≠ 0 then some (x.invalidateCache, u) else some (x, u)) = some (hll', updated) →
      updated ≠ 0 ∧ hll'.validCache = false ∨ updated = 0 ∧ hll'.card = hll.card := by
    intro x u hcard hu
    split_ifs at hu with hne
    · cases hu
      exact Or.inl ⟨hne, validCache_invalidateCache x⟩
    · cases hu
      exact Or.inr ⟨not_not.1 hne, hcard (not_not.1 hne)⟩
  rw [hllAdd] at h
  split at h
  · exact hfinish (x := { hll with registers := { hll.registers with
      bytes := (hllDenseAdd hll.registers.bytes hash).1 } }) (fun _ => rfl) h
  · obtain ⟨⟨hll₁, u⟩, h₁, hu⟩ := Option.bind_eq_some_iff.1 h
    refine hfinish (fun hzero => ?_) hu
    subst hzero
    rw [hllSparseAdd_unchanged h₁]

/-- A conversion keeps the cached cardinality. -/
theorem hllSparseToDense_card {hll hll' : Hll} {ok : Bool}
    (h : hllSparseToDense hll = some (hll', ok)) : hll'.card = hll.card := by
  rw [hllSparseToDense] at h
  split at h
  · cases h
    rfl
  · obtain ⟨⟨dense, idx⟩, -, hd⟩ := Option.bind_eq_some_iff.1 h
    dsimp only at hd
    split_ifs at hd <;> cases hd <;> rfl

/-! ## Runs with counts -/

/-- A call on a counter. -/
inductive HllCall where
  | add (hash : BitVec 64)
  | toDense
  | count

section
variable (estimate : ℚ → ℕ → BitVec 64)

/-- The counter after a call. -/
def hllCallStep (hll : Hll) : HllCall → Option Hll
  | .add hash => (hllAdd hll hash).map Prod.fst
  | .toDense => (hllSparseToDense hll).map Prod.fst
  | .count => some (hllCount estimate hll).1

/-- The counter after a sequence of calls on a new one. -/
def hllCalls (calls : List HllCall) : Option Hll := calls.foldlM (hllCallStep estimate) hllInit

variable {estimate}

/-- The empty counter has cardinality 0, which is cached. -/
theorem CountInv.init (hempty : estimate 16384 16384 = 0) : CountInv estimate hllInit fun _ => 0 := by
  refine ⟨hllInit_regs, fun _ => ?_⟩
  have hsums : regsSums (fun _ => 0) = (16384, 16384) := by
    simp [regsSums, hllPE, hllRegisters]
  rw [hsums, hempty]
  rfl

/-- **One call** does not fail, and keeps the cached cardinality true. -/
theorem CountInv.step {hll : Hll} {regs : ℕ → ℕ} (h : CountInv estimate hll regs)
    (call : HllCall) : ∃ hll' regs', hllCallStep estimate hll call = some hll' ∧
      CountInv estimate hll' regs' := by
  cases call with
  | add hash =>
    obtain ⟨hll', ha, hr, -⟩ := hllAdd_spec h.hasRegs hash
    refine ⟨hll', raise regs (hllEntry hash), by rw [hllCallStep, ha]; rfl, hr, fun hv => ?_⟩
    rcases hllAdd_cache ha with ⟨-, hinvalid⟩ | ⟨hzero, hcard⟩
    · rw [hinvalid] at hv
      cases hv
    · -- the hash raises no register, so the sums are the same
      have hle : (hllEntry hash).2 ≤ regs (hllEntry hash).1 := by
        by_contra hlt
        rw [if_pos (not_le.1 hlt)] at hzero
        cases hzero
      have hsame : regsSums (raise regs (hllEntry hash)) = regsSums regs := by
        refine regsSums_congr fun r _ => ?_
        rw [raise_apply]
        split_ifs with he
        · rw [he, max_eq_left hle]
        · rfl
      rw [Hll.validCache, hcard] at hv
      rw [hcard, hsame]
      exact h.cache hv
  | toDense =>
    obtain ⟨hll', hd, -, hr, -⟩ := hllSparseToDense_regs h.hasRegs
    have hcard := hllSparseToDense_card hd
    refine ⟨hll', regs, by rw [hllCallStep, hd]; rfl, hr, fun hv => ?_⟩
    rw [Hll.validCache, hcard] at hv
    rw [hcard]
    exact h.cache hv
  | count => exact ⟨_, regs, rfl, h.count.2⟩

theorem CountInv.run (hempty : estimate 16384 16384 = 0) (calls : List HllCall) :
    ∃ hll regs, hllCalls estimate calls = some hll ∧ CountInv estimate hll regs := by
  obtain ⟨hll, hrun, regs, hinv⟩ := Run.exists_run_of_forall
    (R := fun _ hll => ∃ regs, CountInv estimate hll regs) (C := fun _ => True)
    (fun _ hll call ⟨regs, h⟩ _ => by
      obtain ⟨hll', regs', hs, h'⟩ := h.step call
      exact ⟨hll', hs, regs', h'⟩) (h := []) ⟨_, .init hempty⟩
    fun call (_ : call ∈ calls) => trivial
  exact ⟨hll, regs, hrun, hinv⟩

/-- **The estimate depends only on the registers.**  After any calls, `hllCount` uses
    the sum of `2^-reg` and the number of zeros of the current registers, and returns
    the estimate from them; so it returns the same for counters with the same
    registers, whichever encodings they have and whatever they have cached. -/
theorem hllCalls_count (hempty : estimate 16384 16384 = 0) (calls₁ calls₂ : List HllCall) :
    ∃ hll₁ hll₂, hllCalls estimate calls₁ = some hll₁ ∧ hllCalls estimate calls₂ = some hll₂ ∧
      (∀ hll ∈ [hll₁, hll₂], hllSums hll = regsSums hll.register ∧
        (hllCount estimate hll).2 = estimate (hllSums hll).1 (hllSums hll).2) ∧
      ((∀ r < hllRegisters, hll₁.register r = hll₂.register r) →
        hllSums hll₁ = hllSums hll₂ ∧
          (hllCount estimate hll₁).2 = (hllCount estimate hll₂).2) := by
  obtain ⟨hll₁, regs₁, h₁, hinv₁⟩ := CountInv.run hempty calls₁
  obtain ⟨hll₂, regs₂, h₂, hinv₂⟩ := CountInv.run hempty calls₂
  have hsums : ∀ {hll : Hll} {regs : ℕ → ℕ}, CountInv estimate hll regs →
      hllSums hll = regsSums hll.register ∧
        (hllCount estimate hll).2 = estimate (hllSums hll).1 (hllSums hll).2 := by
    intro hll regs hinv
    rw [hinv.count.1, hinv.hasRegs.hllSums_eq]
    exact ⟨regsSums_congr fun r hr => (hinv.hasRegs.register_eq hr).symm, rfl⟩
  have hs₁ := hsums hinv₁
  have hs₂ := hsums hinv₂
  refine ⟨hll₁, hll₂, h₁, h₂, ?_, fun hregs => ?_⟩
  · simp only [List.forall_mem_cons]
    exact ⟨hs₁, hs₂, nofun⟩
  · have hsame : hllSums hll₁ = hllSums hll₂ := by
      rw [hs₁.1, hs₂.1]
      exact regsSums_congr hregs
    exact ⟨hsame, by rw [hs₁.2, hs₂.2, hsame]⟩

end

/-- A rounded count of the registers that are not zero. -/
def nonzeroRegisters (_ : ℚ) (ez : ℕ) : BitVec 64 := BitVec.ofNat 64 (hllRegisters - ez)

/-- A counter that was counted before an addition, and a dense one that was not. -/
theorem hllCalls_count_mixed :
    ∃ hll₁ hll₂, hllCalls nonzeroRegisters [.add 1, .count, .add 2] = some hll₁ ∧
      hllCalls nonzeroRegisters [.toDense, .add 2, .add 1] = some hll₂ ∧
      (∀ hll ∈ [hll₁, hll₂], hllSums hll = regsSums hll.register ∧
        (hllCount nonzeroRegisters hll).2 =
          nonzeroRegisters (hllSums hll).1 (hllSums hll).2) ∧
      ((∀ r < hllRegisters, hll₁.register r = hll₂.register r) →
        hllSums hll₁ = hllSums hll₂ ∧
          (hllCount nonzeroRegisters hll₁).2 = (hllCount nonzeroRegisters hll₂).2) :=
  hllCalls_count (by decide) [.add 1, .count, .add 2] [.toDense, .add 2, .add 1]

end Honas

/-
  Runs of a HyperLogLog counter.

  A run adds hashes to a new counter and converts it to the dense encoding at
  any points.  `hllRun_refines`: whichever encoding is in use, the registers
  are the maxima of the pattern lengths of the hashes that were added.
-/
import Honas.HyperloglogSpec
import Honas.Lib.Run

namespace Honas

open MaxSketch

/-- A call on a counter. -/
inductive HllEvent where
  | add (hash : BitVec 64)
  | toDense

/-- The counter after a call. -/
def hllStep (hll : Hll) : HllEvent → Option Hll
  | .add hash => (hllAdd hll hash).map Prod.fst
  | .toDense => (hllSparseToDense hll).map Prod.fst

/-- The counter after a sequence of calls on a new one. -/
def hllRun (events : List HllEvent) : Option Hll := events.foldlM hllStep hllInit

/-- The hashes that a sequence of calls adds. -/
def hllHashes (events : List HllEvent) : List (BitVec 64) :=
  events.filterMap fun | .add hash => some hash | .toDense => none

/-- The maximum pattern lengths of the hashes, by register. -/
def hllMaxPatLen (hashes : List (BitVec 64)) : ℕ → ℕ := ofList (hashes.map hllEntry)

/-- The pattern length of a register is the greatest of the hashes that map to
    it, and 0 if there is none. -/
theorem isGreatest_hllMaxPatLen (hashes : List (BitVec 64)) (r : ℕ) :
    IsGreatest (insert 0 {n | ∃ hash ∈ hashes, hllPatLen hash = (n, r)})
      (hllMaxPatLen hashes r) := by
  have hset : {n | (r, n) ∈ hashes.map hllEntry} = {n | ∃ hash ∈ hashes, hllPatLen hash = (n, r)} := by
    ext n
    change (r, n) ∈ hashes.map hllEntry ↔ _
    rw [List.mem_map]
    refine exists_congr fun hash => and_congr_right fun _ => ?_
    rw [hllEntry, Prod.ext_iff, Prod.ext_iff]
    exact and_comm
  rw [← hset]
  exact isGreatest_ofList _ r

/-- One call: a conversion keeps the registers, an addition raises one. -/
theorem hllStep_spec {events : List HllEvent} {hll : Hll} {event : HllEvent}
    (h : HasRegs hll (hllMaxPatLen (hllHashes events))) :
    ∃ hll', hllStep hll event = some hll' ∧
      HasRegs hll' (hllMaxPatLen (hllHashes (events ++ [event]))) := by
  cases event with
  | add hash =>
    obtain ⟨hll', ha, hr, -⟩ := hllAdd_spec h hash
    refine ⟨hll', by rw [hllStep, ha]; rfl, ?_⟩
    have happend : hllMaxPatLen (hllHashes (events ++ [.add hash])) =
        raise (hllMaxPatLen (hllHashes events)) (hllEntry hash) := by
      rw [hllHashes, List.filterMap_append, hllMaxPatLen, List.map_append]
      exact addAll_append _ _ _
    rwa [happend]
  | toDense =>
    obtain ⟨hll', hd, -, hr, -⟩ := hllSparseToDense_regs h
    refine ⟨hll', by rw [hllStep, hd]; rfl, ?_⟩
    rwa [hllHashes, List.filterMap_append, List.filterMap_cons_none rfl, List.filterMap_nil,
      List.append_nil]

/-- **A counter refines an array of maxima.**  After every sequence of calls the
    registers are the greatest pattern lengths in either encoding, the opcodes
    of a sparse counter cover all registers, and the next addition reports
    exactly whether a register grows. -/
theorem hllRun_refines (events : List HllEvent) :
    ∃ hll, hllRun events = some hll ∧
      (∀ r < hllRegisters, IsGreatest
        (insert 0 {n | ∃ hash ∈ hllHashes events, hllPatLen hash = (n, r)}) (hll.register r)) ∧
      (hll.encoding = .sparse → ∃ ops, hll.registers.bytes = encode ops ∧
        (expand ops).length = 16384 ∧ ∀ r < hllRegisters, ofRegs (expand ops) r = hll.register r) ∧
      (hll.encoding = .dense → hll.registers.len = hllDenseSize ∧
        ∀ r < hllRegisters, hllDenseGetRegister hll.registers.bytes r = hll.register r) ∧
      (∃ hll', hllSparseToDense hll = some (hll', true)) ∧
      ∀ hash, ∃ hll' updated, hllAdd hll hash = some (hll', updated) ∧
        (updated = 0 ∨ updated = 1) ∧
        (updated = 1 ↔ ∃ r < hllRegisters, hll.register r < hll'.register r) := by
  obtain ⟨hll, hrun, hregs⟩ := Run.exists_run_of_forall
    (R := fun events hll => HasRegs hll (hllMaxPatLen (hllHashes events))) (C := fun _ => True)
    (fun _ _ _ h _ => hllStep_spec h) (h := []) hllInit_regs
    fun event (_ : event ∈ events) => trivial
  rw [List.nil_append] at hregs
  have hreg : ∀ r < hllRegisters, hll.register r = hllMaxPatLen (hllHashes events) r :=
    fun r hr => hregs.register_eq hr
  refine ⟨hll, hrun, fun r hr => ?_, fun he => ?_, fun he => ?_, ?_, fun hash => ?_⟩
  · rw [hreg r hr]
    exact isGreatest_hllMaxPatLen _ r
  · obtain ⟨ops, hb, hl, hr⟩ := (HasRegs.sparse he).1 hregs
    exact ⟨ops, hb, hl, fun r h => (hr r h).trans (hreg r h).symm⟩
  · obtain ⟨hl, hr⟩ := (HasRegs.dense he).1 hregs
    exact ⟨hl, fun r h => (hr r h).trans (hreg r h).symm⟩
  · obtain ⟨hll', hd, -⟩ := hllSparseToDense_regs hregs
    exact ⟨hll', hd⟩
  · obtain ⟨hll', ha, hr, -⟩ := hllAdd_spec hregs hash
    have hi : (hllEntry hash).1 < hllRegisters := hllPatLen_index_lt hash
    refine ⟨hll', _, ha, ?_, ?_⟩
    · split_ifs
      · exact Or.inr rfl
      · exact Or.inl rfl
    -- only the register of the hash can grow, and it does if its value is smaller
    · constructor
      · intro h
        have hlt : hllMaxPatLen (hllHashes events) (hllEntry hash).1 < (hllEntry hash).2 := by
          by_contra hge
          rw [if_neg hge] at h
          exact absurd h (by decide)
        refine ⟨(hllEntry hash).1, hi, ?_⟩
        rw [hreg _ hi, hr.register_eq hi, raise_apply, if_pos rfl, max_eq_right hlt.le]
        exact hlt
      · rintro ⟨r, hlt, hgrow⟩
        rw [hreg r hlt, hr.register_eq hlt, raise_apply] at hgrow
        split_ifs at hgrow with hri
        · subst hri
          rw [if_pos]
          by_contra hge
          rw [max_eq_left (not_lt.1 hge)] at hgrow
          exact lt_irrefl _ hgrow
        · exact absurd hgrow (lt_irrefl _)

end Honas

/-
  The selection of filters for a client.

  `honas_state_init_common` counts the combinations of filters once, and no
  function of `honas_state.c` changes the count afterwards (`StateStep`), so
  that the hash of a client can be taken modulo it in every state that is
  reached from an opened one.
-/
import Honas.StatePersist

namespace Honas

open Bits

/-- The functions that change a state, one call each. -/
inductive StateStep : HonasState → HonasState → Prop
  | register {sha256 state lookup dryrun state' dryrun'} :
      honasStateRegisterHostNameLookup sha256 state lookup dryrun = some (state', dryrun') →
      StateStep state state'
  | persist {estimate state state' file} :
      honasStatePersist estimate state = some (state', file) → StateStep state state'
  | combineTarget {target source r target' source'} :
      honasStateAggregateCombine target source = some (r, target', source') →
      StateStep target target'
  | combineSource {target source r target' source'} :
      honasStateAggregateCombine target source = some (r, target', source') →
      StateStep source source'

/-- The states that `honas_state_create` and `honas_state_load` give. -/
inductive OpenedState : HonasState → Prop
  | create {p state} : honasStateCreate p = some (.ok state) → OpenedState state
  | load {file state} : honasStateLoad file = some (.ok state) → OpenedState state

/-! ## The count does not change -/

namespace HonasState

/-- The number of combinations, which only `honas_state_init_common` writes. -/
abbrev nrCombinations (state : HonasState) : ℕ := state.nrFiltersPerUserCombinations

variable {state state' : HonasState}

@[simp] theorem setHeader_nrCombinations (field : HeaderField) (value : ℕ) :
    (state.setHeader field value).nrCombinations = state.nrCombinations := rfl

@[simp] theorem setCount_nrCombinations (c : Counter) (hll : Hll) :
    (state.setCount c hll).nrCombinations = state.nrCombinations := by
  unfold setCount
  split_ifs <;> rfl

theorem countRequest_nrCombinations (timestamp : BitVec 64) :
    (state.countRequest timestamp).nrCombinations = state.nrCombinations := by
  unfold countRequest
  dsimp only
  split_ifs <;> rfl

theorem addCount_nrCombinations {c : Counter} {hash : BitVec 64}
    (h : state.addCount c hash = some state') : state'.nrCombinations = state.nrCombinations := by
  obtain ⟨hll, -, h⟩ := Option.bind_eq_some_iff.1 h
  obtain ⟨r, -, h⟩ := Option.bind_eq_some_iff.1 h
  rw [← Option.some.inj h]
  exact setCount_nrCombinations c r.1

theorem setInFilter_nrCombinations {nrHashes : ℕ} {hash : List Byte} {i : ℕ}
    (h : setInFilter nrHashes hash state i = some state') :
    state'.nrCombinations = state.nrCombinations := by
  obtain ⟨transformed, -, h⟩ := Option.bind_eq_some_iff.1 h
  obtain ⟨region, -, h⟩ := Option.bind_eq_some_iff.1 h
  obtain ⟨filter, -, h⟩ := Option.bind_eq_some_iff.1 h
  obtain ⟨filter', -, h⟩ := Option.bind_eq_some_iff.1 h
  rw [← Option.some.inj h]

/-- A fold of steps that keep the count keeps it. -/
theorem foldlM_nrCombinations {α : Type*} {step : HonasState → α → Option HonasState}
    (hstep : ∀ s a s', step s a = some s' → s'.nrCombinations = s.nrCombinations) {l : List α}
    (h : l.foldlM step state = some state') : state'.nrCombinations = state.nrCombinations :=
  Run.inv_of_run (I := fun s => s.nrCombinations = state.nrCombinations) (C := fun _ => True)
    (fun s a s' hs _ he => (hstep s a s' he).trans hs) rfl (fun _ _ => trivial) h

theorem storeName_nrCombinations {sha256 : List Byte → Digest} {nrHashes : ℕ}
    {filterIndexes : List ℕ} {acc acc' : HonasState × Option DryRunCounters} {stored : StoredName}
    (h : storeName sha256 nrHashes filterIndexes acc stored = some acc') :
    acc'.1.nrCombinations = acc.1.nrCombinations := by
  obtain ⟨s₁, h₁, h⟩ := Option.bind_eq_some_iff.1 h
  obtain ⟨s₂, h₂, h⟩ := Option.bind_eq_some_iff.1 h
  have hkeep : s₂.nrCombinations = acc.1.nrCombinations :=
    (foldlM_nrCombinations (fun _ _ _ => setInFilter_nrCombinations) h₂).trans
      (addCount_nrCombinations h₁)
  cases hd : acc.2 with
  | none =>
    rw [hd] at h
    rw [← Option.some.inj h]
    exact hkeep
  | some dryrun =>
    rw [hd] at h
    obtain ⟨dryrun', -, h⟩ := Option.bind_eq_some_iff.1 h
    rw [← Option.some.inj h]
    exact hkeep

theorem persistCount_nrCombinations {c : Counter} (h : state.persistCount c = some state') :
    state'.nrCombinations = state.nrCombinations := by
  unfold persistCount at h
  split_ifs at h
  · obtain ⟨r, -, h⟩ := Option.bind_eq_some_iff.1 h
    obtain ⟨registers, -, h⟩ := Option.bind_eq_some_iff.1 h
    obtain ⟨registers', -, h⟩ := Option.bind_eq_some_iff.1 h
    obtain ⟨hll, -, h⟩ := Option.bind_eq_some_iff.1 h
    rw [← Option.some.inj h]
    exact setCount_nrCombinations c hll
  · rw [← Option.some.inj h]

theorem estimateCount_nrCombinations {estimate : ℚ → ℕ → BitVec 64} {c : Counter}
    {field : HeaderField} (h : state.estimateCount estimate c field = some state') :
    state'.nrCombinations = state.nrCombinations := by
  obtain ⟨hll, -, h⟩ := Option.bind_eq_some_iff.1 h
  rw [← Option.some.inj h]
  exact setCount_nrCombinations c _

theorem countFilterBits_nrCombinations {i : ℕ} (h : state.countFilterBits i = some state') :
    state'.nrCombinations = state.nrCombinations := by
  obtain ⟨region, -, h⟩ := Option.bind_eq_some_iff.1 h
  obtain ⟨filter, -, h⟩ := Option.bind_eq_some_iff.1 h
  rw [← Option.some.inj h]

end HonasState

open HonasState

theorem combineFilter_nrCombinations {source target target' : HonasState} {i : ℕ}
    (h : combineFilter source target i = some target') :
    target'.nrCombinations = target.nrCombinations := by
  obtain ⟨targetRegion, -, h⟩ := Option.bind_eq_some_iff.1 h
  obtain ⟨sourceRegion, -, h⟩ := Option.bind_eq_some_iff.1 h
  obtain ⟨targetFilter, -, h⟩ := Option.bind_eq_some_iff.1 h
  obtain ⟨sourceFilter, -, h⟩ := Option.bind_eq_some_iff.1 h
  obtain ⟨filter, -, h⟩ := Option.bind_eq_some_iff.1 h
  rw [← Option.some.inj h]

theorem mergeCount_nrCombinations {c : Counter} {target source target' source' : HonasState}
    (h : mergeCount c target source = some (target', source')) :
    target'.nrCombinations = target.nrCombinations ∧
      source'.nrCombinations = source.nrCombinations := by
  obtain ⟨dst, -, h⟩ := Option.bind_eq_some_iff.1 h
  obtain ⟨src, -, h⟩ := Option.bind_eq_some_iff.1 h
  obtain ⟨r, -, h⟩ := Option.bind_eq_some_iff.1 h
  obtain ⟨rfl, rfl⟩ := Prod.mk.inj (Option.some.inj h)
  exact ⟨setCount_nrCombinations c _, setCount_nrCombinations c _⟩

theorem aggregateCombine_nrCombinations {target source target' source' : HonasState} {r : Bool}
    (h : honasStateAggregateCombine target source = some (r, target', source')) :
    target'.nrCombinations = target.nrCombinations ∧
      source'.nrCombinations = source.nrCombinations := by
  unfold honasStateAggregateCombine at h
  split_ifs at h
  · obtain ⟨t₁, h₁, h⟩ := Option.bind_eq_some_iff.1 h
    obtain ⟨⟨t₂, s₂⟩, h₂, h⟩ := Option.bind_eq_some_iff.1 h
    obtain ⟨⟨t₃, s₃⟩, h₃, h⟩ := Option.bind_eq_some_iff.1 h
    have e₁ := foldlM_nrCombinations (fun _ _ _ => combineFilter_nrCombinations) h₁
    obtain ⟨e₂, f₂⟩ := mergeCount_nrCombinations h₂
    obtain ⟨e₃, f₃⟩ := mergeCount_nrCombinations h₃
    simp only [Option.some.injEq, Prod.mk.injEq] at h
    obtain ⟨-, rfl, rfl⟩ := h
    exact ⟨e₃.trans (e₂.trans e₁), f₃.trans f₂⟩
  · simp only [Option.some.injEq, Prod.mk.injEq] at h
    obtain ⟨-, rfl, rfl⟩ := h
    exact ⟨rfl, rfl⟩

/-- **No call changes the number of combinations.** -/
theorem StateStep.nrCombinations {state state' : HonasState} (h : StateStep state state') :
    state'.nrCombinations = state.nrCombinations := by
  cases h with
  | @register _ _ lookup _ _ _ h =>
    obtain ⟨hash, -, h⟩ := Option.bind_eq_some_iff.1 h
    obtain ⟨s₁, h₁, h⟩ := Option.bind_eq_some_iff.1 h
    dsimp only at h
    by_cases h0 : s₁.nrFiltersPerUserCombinations = 0
    · rw [if_pos h0] at h
      cases h
    rw [if_neg h0] at h
    obtain ⟨filterIndexes, -, h⟩ := Option.bind_eq_some_iff.1 h
    obtain ⟨names, -, h⟩ := Option.bind_eq_some_iff.1 h
    obtain ⟨⟨s₂, d₂⟩, h₂, h⟩ := Option.bind_eq_some_iff.1 h
    obtain ⟨rfl, -⟩ := Prod.mk.inj (Option.some.inj h)
    have hnames : s₂.nrCombinations = s₁.nrCombinations :=
      Run.inv_of_run (I := fun acc : HonasState × Option DryRunCounters =>
          acc.1.nrCombinations = s₁.nrCombinations) (C := fun _ => True)
        (fun _ _ _ hI _ he => (storeName_nrCombinations he).trans hI) rfl (fun _ _ => trivial) h₂
    exact hnames.trans ((addCount_nrCombinations h₁).trans (countRequest_nrCombinations _))
  | persist h =>
    obtain ⟨s₁, h₁, h⟩ := Option.bind_eq_some_iff.1 h
    obtain ⟨s₂, h₂, h⟩ := Option.bind_eq_some_iff.1 h
    obtain ⟨s₃, h₃, h⟩ := Option.bind_eq_some_iff.1 h
    obtain ⟨s₄, h₄, h⟩ := Option.bind_eq_some_iff.1 h
    obtain ⟨s₅, h₅, h⟩ := Option.bind_eq_some_iff.1 h
    obtain ⟨rfl, -⟩ := Prod.mk.inj (Option.some.inj h)
    calc s₅.nrCombinations = s₄.nrCombinations :=
          foldlM_nrCombinations (fun _ _ _ => countFilterBits_nrCombinations) h₅
      _ = s₃.nrCombinations := estimateCount_nrCombinations h₄
      _ = s₂.nrCombinations := persistCount_nrCombinations h₃
      _ = s₁.nrCombinations := estimateCount_nrCombinations h₂
      _ = state.nrCombinations := persistCount_nrCombinations h₁
  | combineTarget h => exact (aggregateCombine_nrCombinations h).1
  | combineSource h => exact (aggregateCombine_nrCombinations h).2

/-! ## The count of an opened state -/

/-- `honas_state_init_common` keeps the memory, and counts the combinations that
    its header asks for. -/
theorem init_nrCombinations {mmap : List Byte} {counts : Counter → Hll} {state : HonasState}
    (h : honasStateInitCommon mmap counts = some state) :
    state.mmap = mmap ∧
      numberOfCombinations (headerGet mmap .numberOfFilters)
        (headerGet mmap .numberOfFiltersPerUser) = some state.nrCombinations := by
  unfold honasStateInitCommon at h
  by_cases h1 : mmap.length < sizeofHeader
  · rw [if_pos h1] at h
    cases h
  rw [if_neg h1] at h
  obtain ⟨size, -, h⟩ := Option.bind_eq_some_iff.1 h
  by_cases h2 : mmap.length < size
  · rw [if_pos h2] at h
    cases h
  rw [if_neg h2] at h
  obtain ⟨filters, -, h⟩ := Option.bind_eq_some_iff.1 h
  obtain ⟨nr, hnr, h⟩ := Option.bind_eq_some_iff.1 h
  rw [← Option.some.inj h]
  exact ⟨rfl, hnr⟩

/-- Setting up a counter on the memory stores what was there. -/
theorem initCount_nrCombinations {c : Counter} {state state' : HonasState}
    (h : ((readRegion state.mmap (state.countRegisters c)).bind fun registers =>
      (hllInitFromBuffer registers).bind fun hll => some (state.setCount c hll)) = some state') :
    state'.mmap = state.mmap ∧ state'.nrCombinations = state.nrCombinations := by
  obtain ⟨registers, hread, h⟩ := Option.bind_eq_some_iff.1 h
  obtain ⟨hll, hinit, h⟩ := Option.bind_eq_some_iff.1 h
  obtain rfl := Option.some.inj h
  refine ⟨?_, setCount_nrCombinations c hll⟩
  rw [readRegion] at hread
  rw [hllInitFromBuffer] at hinit
  split_ifs at hread hinit with hbound hlen
  obtain rfl := Option.some.inj hread
  obtain rfl := Option.some.inj hinit
  rw [setCount_mapped rfl]
  exact splice_slice hbound

/-- The count of an opened state is that of its header. -/
theorem OpenedState.nrCombinations {state : HonasState} (h : OpenedState state) :
    numberOfCombinations (state.header .numberOfFilters) (state.header .numberOfFiltersPerUser) =
      some state.nrCombinations := by
  cases h with
  | @create p _ h =>
    unfold honasStateCreate at h
    by_cases hargs : ¬ (p.numberOfHashes.toNat > 0 ∧ p.numberOfFiltersPerUser.toNat > 0)
    · rw [if_pos hargs] at h
      cases h
    rw [if_neg hargs] at h
    obtain ⟨size, -, h⟩ := Option.bind_eq_some_iff.1 h
    by_cases h0 : size = 0
    · rw [if_pos h0] at h
      cases h
    · rw [if_neg h0] at h
      obtain ⟨s, hinit, h⟩ := Option.bind_eq_some_iff.1 h
      obtain rfl := Except.ok.inj (Option.some.inj h)
      obtain ⟨hm, hnr⟩ := init_nrCombinations hinit
      rw [HonasState.header, HonasState.header, hm]
      exact hnr
  | @load file _ h =>
    cases file with
    | none => cases h
    | some mmap =>
      cases mmap with
      | nil => cases h
      | cons b mmap =>
        unfold honasStateLoad at h
        dsimp only at h
        split_ifs at h
        · cases h
        · cases h
        obtain ⟨size, -, h⟩ := Option.bind_eq_some_iff.1 h
        split_ifs at h
        · cases h
        obtain ⟨s₀, hinit, h⟩ := Option.bind_eq_some_iff.1 h
        obtain ⟨s₁, h₁, h⟩ := Option.bind_eq_some_iff.1 h
        obtain ⟨s₂, h₂, h⟩ := Option.bind_eq_some_iff.1 h
        obtain rfl := Except.ok.inj (Option.some.inj h)
        obtain ⟨hm₀, hnr⟩ := init_nrCombinations hinit
        obtain ⟨hm₁, hnr₁⟩ := initCount_nrCombinations h₁
        obtain ⟨hm₂, hnr₂⟩ := initCount_nrCombinations h₂
        rw [HonasState.header, HonasState.header, hm₂, hm₁, hm₀, hnr₂, hnr₁]
        exact hnr

/-- **The selection of filters never divides by zero**: the wrapping count is the
    binomial coefficient modulo `2 ^ 32`, it is not zero, and it is what a client
    hash is taken modulo in every state reached from an opened state that has
    enough filters for a user. -/
theorem filterSelection_defined :
    (∀ n k, k ≤ n → n < 2 ^ 32 →
      ∃ nr, numberOfCombinations n k = some nr ∧ nr = n.choose k % 2 ^ 32 ∧ nr ≠ 0) ∧
    ∀ opened state, OpenedState opened →
      opened.header .numberOfFiltersPerUser ≤ opened.header .numberOfFilters →
      Relation.ReflTransGen StateStep opened state → state.nrFiltersPerUserCombinations ≠ 0 := by
  refine ⟨fun n k hk hn => ⟨_, numberOfCombinations_eq hk hn, rfl, choose_mod_ne_zero hk hn⟩,
    fun opened state hopened hle hsteps => ?_⟩
  have hconst : state.nrCombinations = opened.nrCombinations := by
    induction hsteps with
    | refl => rfl
    | tail _ hstep ih => exact hstep.nrCombinations.trans ih
  have hpos := (numberOfCombinations_ne_zero hle (header_lt rfl) hopened.nrCombinations).1
  change state.nrCombinations ≠ 0
  omega

/-- A count that wraps. -/
theorem filterSelection_defined_forty :
    ∃ nr, numberOfCombinations 40 20 = some nr ∧ nr = Nat.choose 40 20 % 2 ^ 32 ∧ nr ≠ 0 :=
  filterSelection_defined.1 40 20 (by decide) (by decide)

end Honas

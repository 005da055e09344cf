/-
  Combinations (`include/combinations.h`, `src/combinations.c`).

  `numberOfCombinations` is the recursion on Pascal's triangle in wrapping
  32-bit arithmetic; its result is the binomial coefficient modulo `2^32` and
  is never zero (`numberOfCombinations_eq`, `numberOfCombinations_ne_zero`).
  `lookupCombination` steps through the combinations from the first one.  It
  returns `none` when an assertion fails or its search runs off the start of
  the set; `lookupCombination_spec` shows that neither happens for the
  combinations that are counted, and that the result is a subset.
  `lookupCombination_unranks`: combination `c` is the `c`-th subset in
  lexicographic order.
-/
import Honas.Lib.Combinadic

namespace Honas

open Combinadic

/-- `number_of_combinations`; `none` when `set_size` would wrap below zero. -/
def numberOfCombinations (setSize subsetSize : ℕ) : Option ℕ :=
  if subsetSize = 0 ∨ subsetSize = setSize then some 1
  else if subsetSize = 1 then some setSize
  else
    match setSize with
    | 0 => none
    | setSize + 1 => do
      let a ← numberOfCombinations setSize subsetSize
      let b ← numberOfCombinations setSize (subsetSize - 1)
      some ((a + b) % 2 ^ 32)

/-- Find the offset in `subset_indexes` that is next to be incremented, going
    down from `i - 1`.  Like the rest of `lookup_combination` this is written
    without wrapping: no value gets above `set_size`. -/
def findIncrement (setSize subsetSize : ℕ) (subsetIndexes : List ℕ) : ℕ → Option ℕ
  | 0 => none
  | i + 1 =>
    if subsetIndexes.getD i 0 ≠ i + setSize - subsetSize then some i
    else findIncrement setSize subsetSize subsetIndexes i

/-- Update the `n` offsets from `i`, each to the one before it plus one. -/
def updateAfter : ℕ → ℕ → List ℕ → List ℕ
  | 0, _, subsetIndexes => subsetIndexes
  | n + 1, i, subsetIndexes =>
    updateAfter n (i + 1) (subsetIndexes.set i (subsetIndexes.getD (i - 1) 0 + 1))

/-- The body of the loop of `lookup_combination`. -/
def nextCombination (setSize subsetSize : ℕ) (subsetIndexes : List ℕ) : Option (List ℕ) := do
  let i ← findIncrement setSize subsetSize subsetIndexes subsetSize
  some (updateAfter (subsetSize - (i + 1)) (i + 1)
    (subsetIndexes.set i (subsetIndexes.getD i 0 + 1)))

/-- The loop of `lookup_combination`. -/
def nextCombinations (setSize subsetSize : ℕ) : ℕ → List ℕ → Option (List ℕ)
  | 0, subsetIndexes => some subsetIndexes
  | c + 1, subsetIndexes => do
    let subsetIndexes ← nextCombination setSize subsetSize subsetIndexes
    nextCombinations setSize subsetSize c subsetIndexes

/-- `lookup_combination`. -/
def lookupCombination (setSize subsetSize combination : ℕ) : Option (List ℕ) := do
  if ¬ (subsetSize > 0 ∧ subsetSize ≤ setSize) then none
  else
    let nr ← numberOfCombinations setSize subsetSize
    if ¬ combination < nr then none
    else nextCombinations setSize subsetSize combination (List.range subsetSize)

/-! ## The number of combinations -/

/-- **The count is the binomial coefficient** modulo `2^32`. -/
theorem numberOfCombinations_eq : ∀ {n k : ℕ}, k ≤ n → n < 2 ^ 32 →
    numberOfCombinations n k = some (n.choose k % 2 ^ 32)
  | n, k, hk, hn => by
    rw [numberOfCombinations.eq_def]
    by_cases h0 : k = 0 ∨ k = n
    · rw [if_pos h0]
      rcases h0 with rfl | rfl <;> simp
    · rw [if_neg h0]
      by_cases h1 : k = 1
      · rw [if_pos h1, h1, Nat.choose_one_right, Nat.mod_eq_of_lt hn]
      · rw [if_neg h1]
        obtain ⟨j, rfl⟩ : ∃ j, k = j + 1 := ⟨k - 1, by omega⟩
        cases n with
        | zero => omega
        | succ n =>
          simp only [Nat.add_sub_cancel]
          rw [numberOfCombinations_eq (show j + 1 ≤ n by omega) (by omega),
            numberOfCombinations_eq (show j ≤ n by omega) (by omega)]
          simp only [Option.bind_eq_bind, Option.bind_some]
          rw [← Nat.add_mod, Nat.choose_succ_succ, Nat.add_comm]

/-- A binomial coefficient of numbers below `2^32` has fewer than 32 factors
    of two. -/
theorem choose_mod_ne_zero {n k : ℕ} (hk : k ≤ n) (hn : n < 2 ^ 32) : n.choose k % 2 ^ 32 ≠ 0 := by
  intro h
  have hpos : n.choose k ≠ 0 := (Nat.choose_pos hk).ne'
  have h32 := (Nat.prime_two.pow_dvd_iff_le_factorization hpos).1 (Nat.dvd_of_mod_eq_zero h)
  have hlog : (n.choose k).factorization 2 ≤ Nat.log 2 n := Nat.factorization_choose_le_log
  have hlt : Nat.log 2 n < 32 := Nat.log_lt_of_lt_pow' (by decide) hn
  omega

/-- **The count is never zero.** -/
theorem numberOfCombinations_ne_zero {n k c : ℕ} (hk : k ≤ n) (hn : n < 2 ^ 32)
    (h : numberOfCombinations n k = some c) : 0 < c ∧ c ≤ n.choose k := by
  rw [numberOfCombinations_eq hk hn, Option.some_inj] at h
  subst h
  exact ⟨Nat.pos_of_ne_zero (choose_mod_ne_zero hk hn), Nat.mod_le _ _⟩

/-! ## The enumeration -/

/-- The strictly increasing list of the elements of a `k`-subset of the numbers
    below `n`. -/
structure IsSubset (n k : ℕ) (l : List ℕ) : Prop where
  length : l.length = k
  sorted : l.Pairwise (· < ·)
  lt : ∀ x ∈ l, x < n

/-- A subset is the last one, or it has an element that can be increased, with
    the largest numbers after it. -/
theorem split_subset {n : ℕ} : ∀ {l : List ℕ}, l.Pairwise (· < ·) → (∀ x ∈ l, x < n) →
    l = List.range' (n - l.length) l.length ∨
      ∃ p x m, l = p ++ x :: List.range' (n - m) m ∧ x + 1 + m < n
  | [], _, _ => .inl rfl
  | a :: l, hs, hlt => by
    have ha : a < n := hlt a (by simp)
    rw [List.pairwise_cons] at hs
    rcases split_subset hs.2 fun x hx => hlt x (by simp [hx]) with h | ⟨p, x, m, h, hx⟩
    · have hlow : a + l.length < n := by
        cases hl : l.length with
        | zero => omega
        | succ m =>
          have hmem : n - l.length ∈ l := by
            rw [h, List.mem_range'_1]
            have : l.length ≤ n := by
              by_contra hn
              have h0 : 0 ∈ l := by
                rw [h, List.mem_range'_1]; omega
              exact absurd (hs.1 0 h0) (by omega)
            simp only [List.length_range']
            omega
          have := hs.1 _ hmem
          omega
      by_cases hend : a + 1 + l.length = n
      · left
        rw [List.length_cons, List.range'_succ, show n - (l.length + 1) = a by omega,
          show a + 1 = n - l.length by omega, ← h]
      · exact .inr ⟨[], a, l.length, by rw [← h]; rfl, by omega⟩
    · exact .inr ⟨a :: p, x, m, by rw [h]; rfl, hx⟩

theorem findIncrement_spec {n m x : ℕ} {p : List ℕ} (hx : x + 1 + m < n) :
    ∀ t ≤ m, findIncrement n (p.length + 1 + m) (p ++ x :: List.range' (n - m) m)
      (p.length + 1 + t) = some p.length
  | 0, _ => by
    rw [findIncrement, if_pos]
    rw [List.getD_eq_getElem?_getD, List.getElem?_append_right (by omega)]
    simp only [Nat.sub_self, List.getElem?_cons_zero, Option.getD_some]
    omega
  | t + 1, ht => by
    rw [← Nat.add_assoc, findIncrement, if_neg, findIncrement_spec hx t (by omega)]
    rw [List.getD_eq_getElem?_getD, List.getElem?_append_right (by omega),
      show p.length + 1 + t - p.length = t + 1 by omega, List.getElem?_cons_succ,
      List.getElem?_range' (by omega), Option.getD_some]
    omega

theorem updateAfter_spec : ∀ (m : ℕ) (p q : List ℕ) (y : ℕ), q.length = m →
    updateAfter m (p.length + 1) (p ++ y :: q) = p ++ List.range' y (m + 1)
  | 0, p, q, y, hq => by
    rw [List.length_eq_zero_iff.1 hq]; rfl
  | m + 1, p, [], y, hq => by simp at hq
  | m + 1, p, z :: q, y, hq => by
    have ih := updateAfter_spec m (p ++ [y]) q (y + 1) (by simpa using hq)
    rw [List.length_append, List.length_singleton, List.append_assoc, List.append_assoc] at ih
    rw [updateAfter, Nat.add_sub_cancel, List.range'_succ]
    simp only [List.getD_eq_getElem?_getD, List.getElem?_append_right (le_refl _), Nat.sub_self,
      List.getElem?_cons_zero, Option.getD_some]
    rw [List.set_append_right _ _ (by omega), show p.length + 1 - p.length = 1 by omega]
    exact ih

/-- One step: the next combination, one closer to the last one. -/
theorem nextCombination_spec {n k : ℕ} {l : List ℕ} (hl : IsSubset n k l) (hc : 0 < corank n l) :
    ∃ l', nextCombination n k l = some l' ∧ IsSubset n k l' ∧ corank n l = corank n l' + 1 := by
  obtain ⟨hlen, hs, hlt⟩ := hl
  rcases split_subset hs hlt with h | ⟨p, x, m, rfl, hx⟩
  · have hle : l.length ≤ n := by
      by_contra hn
      have hmem : n ∈ l := by
        rw [h, List.mem_range'_1, List.length_range'] at *; omega
      exact absurd (hlt n hmem) (by omega)
    have := corank_range' (n := n) l.length (n - l.length) (by omega)
    rw [← h, show n - (n - l.length) = l.length by omega, Nat.choose_self] at this
    omega
  · have hk : p.length + 1 + m = k := by
      rw [← hlen]; simp; omega
    have hfind := findIncrement_spec (p := p) hx m (le_refl m)
    rw [hk] at hfind
    have hupd := updateAfter_spec m p (List.range' (n - m) m) (x + 1) (by simp)
    refine ⟨p ++ List.range' (x + 1) (m + 1), ?_, ⟨?_, ?_, ?_⟩, corank_succ p hx⟩
    · rw [nextCombination, hfind]
      simp only [Option.bind_eq_bind, Option.bind_some]
      rw [← hupd, show k - (p.length + 1) = m by omega, List.set_append_right _ _ (le_refl _)]
      simp [List.getD_eq_getElem?_getD]
    · simp; omega
    · rw [List.pairwise_append] at hs ⊢
      refine ⟨hs.1, List.pairwise_lt_range', fun a ha b hb => ?_⟩
      have h1 := hs.2.2 a ha x (by simp)
      rw [List.mem_range'_1] at hb
      omega
    · intro a ha
      rcases List.mem_append.1 ha with ha | ha
      · exact hlt a (by simp [ha])
      · rw [List.mem_range'_1] at ha; omega

theorem nextCombinations_spec {n k : ℕ} : ∀ (c : ℕ) {l : List ℕ}, IsSubset n k l → c ≤ corank n l →
    ∃ l', nextCombinations n k c l = some l' ∧ IsSubset n k l' ∧ corank n l = corank n l' + c
  | 0, l, hl, _ => ⟨l, rfl, hl, rfl⟩
  | c + 1, l, hl, hc => by
    obtain ⟨l₁, h₁, hs₁, hr₁⟩ := nextCombination_spec hl (by omega)
    obtain ⟨l', h', hs', hr'⟩ := nextCombinations_spec c hs₁ (by omega)
    refine ⟨l', ?_, hs', by omega⟩
    rw [nextCombinations, h₁]
    exact h'

theorem isSubset_range {n k : ℕ} (h : k ≤ n) : IsSubset n k (List.range k) := by
  refine ⟨List.length_range, List.pairwise_lt_range, fun x hx => ?_⟩
  have := List.mem_range.1 hx
  omega

/-- **Every counted combination exists**: the enumeration does not run off the
    start of the set, and its result is a subset. -/
theorem lookupCombination_spec {n k c nr : ℕ} (h0 : 0 < k) (hk : k ≤ n) (hn : n < 2 ^ 32)
    (hnr : numberOfCombinations n k = some nr) (hc : c < nr) :
    ∃ l, lookupCombination n k c = some l ∧ IsSubset n k l ∧ corank n l + c + 1 = n.choose k := by
  have hfirst := corank_range' (n := n) k 0 (by omega)
  rw [← List.range_eq_range', Nat.sub_zero] at hfirst
  have hle := (numberOfCombinations_ne_zero hk hn hnr).2
  obtain ⟨l, hl, hs, hr⟩ := nextCombinations_spec c (isSubset_range hk) (by omega)
  refine ⟨l, ?_, hs, by omega⟩
  rw [lookupCombination, if_neg (by simp [h0, hk]), hnr]
  simp only [Option.bind_eq_bind, Option.bind_some, not_not.2 hc, if_false]
  exact hl

/-! ## The order of the enumeration -/

/-- The subsets of one size before a list, in lexicographic order. -/
def subsetsBefore (n k : ℕ) (l : List ℕ) : Set (List ℕ) := {l' | IsSubset n k l' ∧ l' < l}

theorem IsSubset.corank_lt {n k : ℕ} {l l' : List ℕ} (hl : IsSubset n k l) (hl' : IsSubset n k l')
    (h : l < l') : corank n l' < corank n l :=
  corank_lt_of_lt (hl'.length.trans hl.length.symm) hl.sorted hl'.sorted hl.lt hl'.lt h

/-- A subset is determined by its corank. -/
theorem IsSubset.eq_of_corank {n k : ℕ} {l l' : List ℕ} (hl : IsSubset n k l)
    (hl' : IsSubset n k l') (h : corank n l = corank n l') : l = l' := by
  rcases lt_trichotomy l l' with hlt | rfl | hgt
  · have := hl.corank_lt hl' hlt
    omega
  · rfl
  · have := hl'.corank_lt hl hgt
    omega

theorem IsSubset.corank_lt_choose {n k : ℕ} {l : List ℕ} (hl : IsSubset n k l) :
    corank n l < n.choose k := by
  have h := Combinadic.corank_lt_choose (n := n) (y := 0) hl.sorted fun x hx =>
    ⟨Nat.zero_le x, hl.lt x hx⟩
  rwa [Nat.sub_zero, hl.length] at h

/-- Every corank is that of a subset, which the enumeration reaches. -/
theorem exists_subset_corank {n k r : ℕ} (hk : k ≤ n) (hr : r < n.choose k) :
    ∃ l, IsSubset n k l ∧ corank n l = r := by
  have hfirst := corank_range' (n := n) k 0 (by omega)
  rw [← List.range_eq_range', Nat.sub_zero] at hfirst
  obtain ⟨l, -, hl, hc⟩ := nextCombinations_spec (n.choose k - 1 - r) (isSubset_range hk) (by omega)
  exact ⟨l, hl, by omega⟩

/-- **The number of subsets before a subset.** -/
theorem ncard_subsetsBefore {n k : ℕ} {l : List ℕ} (hl : IsSubset n k l) :
    (subsetsBefore n k l).ncard + corank n l + 1 = n.choose k := by
  have hk : k ≤ n := by
    by_contra hlt
    have := hl.corank_lt_choose
    rw [Nat.choose_eq_zero_of_lt (by omega)] at this
    omega
  have himage : corank n '' subsetsBefore n k l =
      (Finset.Ioo (corank n l) (n.choose k) : Set ℕ) := by
    ext r
    rw [Finset.coe_Ioo, Set.mem_Ioo]
    constructor
    · rintro ⟨l', ⟨hl', hlt⟩, rfl⟩
      exact ⟨hl'.corank_lt hl hlt, hl'.corank_lt_choose⟩
    · rintro ⟨hgt, hr⟩
      obtain ⟨l', hl', rfl⟩ := exists_subset_corank hk hr
      refine ⟨l', ⟨hl', ?_⟩, rfl⟩
      rcases lt_trichotomy l' l with hlt | rfl | hlt
      · exact hlt
      · omega
      · have := hl.corank_lt hl' hlt
        omega
  have hinj : Set.InjOn (corank n) (subsetsBefore n k l) := fun a ha b hb h =>
    ha.1.eq_of_corank hb.1 h
  have hcard := hinj.ncard_image
  rw [himage, Set.ncard_coe_finset, Nat.card_Ioo] at hcard
  have := hl.corank_lt_choose
  omega

/-- **Unranking**: combination `c` is the `c`-th subset in lexicographic order;
    the search stays inside the set; different numbers give different subsets,
    and every subset has a number when the count does not wrap. -/
theorem lookupCombination_unranks {n k nr : ℕ} (h0 : 1 ≤ k) (hk : k ≤ n) (hn : n < 2 ^ 32)
    (hnr : numberOfCombinations n k = some nr) :
    (∀ c < nr, ∃ l, lookupCombination n k c = some l ∧ IsSubset n k l ∧
      (subsetsBefore n k l).ncard = c) ∧
    (∀ c < nr, ∀ c' < nr, lookupCombination n k c = lookupCombination n k c' → c = c') ∧
    (n.choose k < 2 ^ 32 → ∀ l, IsSubset n k l →
      ∃! c, c < nr ∧ lookupCombination n k c = some l) := by
  have hrank : ∀ c < nr, ∃ l, lookupCombination n k c = some l ∧ IsSubset n k l ∧
      (subsetsBefore n k l).ncard = c := fun c hc => by
    obtain ⟨l, he, hl, hcor⟩ := lookupCombination_spec h0 hk hn hnr hc
    have := ncard_subsetsBefore hl
    exact ⟨l, he, hl, by omega⟩
  have hinj : ∀ c < nr, ∀ c' < nr, lookupCombination n k c = lookupCombination n k c' → c = c' := by
    intro c hc c' hc' h
    obtain ⟨l, he, -, hcard⟩ := hrank c hc
    obtain ⟨l', he', -, hcard'⟩ := hrank c' hc'
    rw [he, he', Option.some_inj] at h
    rw [← hcard, ← hcard', h]
  refine ⟨hrank, hinj, fun hfit l hl => ?_⟩
  have hall : nr = n.choose k := by
    rw [numberOfCombinations_eq hk hn, Option.some_inj, Nat.mod_eq_of_lt hfit] at hnr
    exact hnr.symm
  have hcount := ncard_subsetsBefore hl
  have hc : (subsetsBefore n k l).ncard < nr := by omega
  obtain ⟨l', he', hl', hcard'⟩ := hrank _ hc
  have hcount' := ncard_subsetsBefore hl'
  have heq : l' = l := hl'.eq_of_corank hl (by omega)
  subst heq
  exact ⟨_, ⟨hc, he'⟩, fun c ⟨hclt, hce⟩ => hinj c hclt _ hc (hce.trans he'.symm)⟩

/-- Three out of five. -/
theorem lookupCombination_unranks_five :
    ∃ l, lookupCombination 5 3 4 = some l ∧ IsSubset 5 3 l ∧ (subsetsBefore 5 3 l).ncard = 4 :=
  (lookupCombination_unranks (by decide) (by decide) (by decide)
    (show numberOfCombinations 5 3 = some 10 by decide +kernel)).1 4 (by decide)

end Honas

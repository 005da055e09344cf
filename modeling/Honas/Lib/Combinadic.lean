/-
  Enumeration of the subsets of a set in lexicographic order.

  A `k`-subset of `{0, .., n-1}` is the strictly increasing list of its
  elements.  Its corank is the number of subsets of its size that come after
  it, `∑ choose (n - 1 - aᵢ) (k - i)`.  A run of consecutive numbers has a
  corank that is one binomial coefficient minus one (`corank_range'`), and so
  replacing the part of a subset that has reached its end by the next run
  lowers the corank by exactly one (`corank_succ`): an enumeration that starts
  at the first subset can take `choose n k - 1` such steps and no more.  The
  corank decreases in the order of the lists (`corank_lt_of_lt`), so these
  steps visit the subsets in that order.
-/
import Mathlib

namespace Combinadic

/-- The number of subsets of the same size after `l`. -/
def corank (n : ℕ) : List ℕ → ℕ
  | [] => 0
  | a :: l => (n - 1 - a).choose (l.length + 1) + corank n l

theorem corank_append (n : ℕ) {p q q' : List ℕ} (h : q.length = q'.length) {d : ℕ}
    (hq : corank n q = corank n q' + d) : corank n (p ++ q) = corank n (p ++ q') + d := by
  induction p with
  | nil => exact hq
  | cons a p ih =>
    rw [List.cons_append, List.cons_append, corank, corank, ih, List.length_append,
      List.length_append, h]
    omega

/-- The corank of a run of consecutive numbers. -/
theorem corank_range' {n : ℕ} : ∀ (m y : ℕ), y + m ≤ n →
    corank n (List.range' y m) + 1 = (n - y).choose m
  | 0, y, _ => by simp [corank]
  | m + 1, y, h => by
    have ih := corank_range' m (y + 1) (show y + 1 + m ≤ n by omega)
    rw [List.range'_succ, corank, List.length_range', Nat.add_assoc, ih,
      show n - y = (n - (y + 1)) + 1 by omega, Nat.choose_succ_succ, Nat.add_comm,
      show n - 1 - y = n - (y + 1) by omega]

/-- **One step of the enumeration**: the elements after `x` are the last ones,
    and they and `x` are replaced by the run from `x + 1`. -/
theorem corank_succ {n m x : ℕ} (p : List ℕ) (h : x + 1 + m < n) :
    corank n (p ++ x :: List.range' (n - m) m) =
      corank n (p ++ List.range' (x + 1) (m + 1)) + 1 := by
  refine corank_append n (by simp) ?_
  have hlast := corank_range' (n := n) m (n - m) (by omega)
  rw [show n - (n - m) = m by omega, Nat.choose_self] at hlast
  rw [corank, List.length_range', show corank n (List.range' (n - m) m) = 0 by omega,
    corank_range' (m + 1) (x + 1) (by omega), Nat.add_zero, show n - 1 - x = n - (x + 1) by omega]

/-! ## Lexicographic order -/

/-- The subsets of the numbers from `y` all come before the next run would. -/
theorem corank_lt_choose {n : ℕ} : ∀ {l : List ℕ} {y : ℕ}, l.Pairwise (· < ·) →
    (∀ x ∈ l, y ≤ x ∧ x < n) → corank n l < (n - y).choose l.length
  | [], _, _, _ => by simp [corank]
  | a :: l, y, hs, hb => by
    obtain ⟨hhead, htail⟩ := List.pairwise_cons.1 hs
    obtain ⟨hya, han⟩ := hb a List.mem_cons_self
    have ih := corank_lt_choose (y := a + 1) htail fun x hx =>
      ⟨hhead x hx, (hb x (List.mem_cons_of_mem _ hx)).2⟩
    calc corank n (a :: l) = (n - 1 - a).choose (l.length + 1) + corank n l := rfl
      _ < (n - 1 - a).choose (l.length + 1) + (n - (a + 1)).choose l.length := by omega
      _ = (n - a).choose (l.length + 1) := by
        rw [show n - a = (n - (a + 1)) + 1 by omega, Nat.choose_succ_succ, Nat.add_comm,
          show n - 1 - a = n - (a + 1) by omega]
      _ ≤ (n - y).choose (l.length + 1) := Nat.choose_le_choose _ (by omega)

/-- **The corank decreases** in lexicographic order. -/
theorem corank_lt_of_lt {n : ℕ} : ∀ {l l' : List ℕ}, l'.length = l.length →
    l.Pairwise (· < ·) → l'.Pairwise (· < ·) → (∀ x ∈ l, x < n) → (∀ x ∈ l', x < n) → l < l' →
    corank n l' < corank n l
  | [], l', hlen, _, _, _, _, h => by
    rw [List.eq_nil_of_length_eq_zero hlen] at h
    exact absurd h (lt_irrefl _)
  | a :: l, [], hlen, _, _, _, _, _ => by simp at hlen
  | a :: l, a' :: l', hlen, hs, hs', hb, hb', h => by
    have hlen' : l'.length = l.length := by simpa using hlen
    obtain ⟨hhead', htail'⟩ := List.pairwise_cons.1 hs'
    rcases List.cons_lt_cons_iff.1 h with hlt | ⟨rfl, hlt⟩
    · have ha' : a' < n := hb' a' List.mem_cons_self
      have hbound := corank_lt_choose (n := n) (y := a') hs' fun x hx => by
        refine ⟨?_, hb' x hx⟩
        rcases List.mem_cons.1 hx with rfl | hx
        · exact le_rfl
        · exact (hhead' x hx).le
      calc corank n (a' :: l') < (n - a').choose (l'.length + 1) := hbound
        _ ≤ (n - 1 - a).choose (l.length + 1) := by
          rw [hlen']
          exact Nat.choose_le_choose _ (by omega)
        _ ≤ corank n (a :: l) := Nat.le_add_right _ _
    · have ih := corank_lt_of_lt hlen' (List.pairwise_cons.1 hs).2 htail'
        (fun x hx => hb x (List.mem_cons_of_mem _ hx))
        (fun x hx => hb' x (List.mem_cons_of_mem _ hx)) hlt
      rw [corank, corank, hlen']
      omega

end Combinadic

/-
  Interleavings.

  Several components share a trace, each item of which has the index of its component.  A
  component sees its own items only (`project`).

  * `perm_of_project`: two traces of which every component sees the same items, in any
    order, hold the same items.
-/
import Mathlib

namespace Interleave

variable {ι α β : Type*} [DecidableEq ι]

/-- What one component sees of a trace. -/
def project (i : ι) (tr : List (ι × α)) : List α :=
  tr.filterMap fun x => if x.1 = i then some x.2 else none

@[simp] theorem project_nil (i : ι) : project i ([] : List (ι × α)) = [] := rfl

@[simp] theorem project_append (i : ι) (tr tr' : List (ι × α)) :
    project i (tr ++ tr') = project i tr ++ project i tr' := List.filterMap_append

theorem project_cons (i : ι) (x : ι × α) (tr : List (ι × α)) :
    project i (x :: tr) = (if x.1 = i then [x.2] else []) ++ project i tr := by
  rw [project, List.filterMap_cons]
  split_ifs <;> rfl

/-- The items of one component, with its index. -/
theorem project_map_pair (i j : ι) (xs : List α) :
    project i (xs.map (Prod.mk j)) = if j = i then xs else [] := by
  rw [project, List.filterMap_map]
  by_cases h : j = i
  · rw [if_pos h]
    simp only [Function.comp_def, if_pos h, List.filterMap_some]
  · rw [if_neg h]
    simp only [Function.comp_def, if_neg h, List.filterMap_none]

theorem project_map (i : ι) (f : α → β) (tr : List (ι × α)) :
    project i (tr.map fun x => (x.1, f x.2)) = (project i tr).map f := by
  rw [project, project, List.filterMap_map, List.map_filterMap]
  refine List.filterMap_congr fun x _ => ?_
  dsimp only [Function.comp_apply]
  split_ifs <;> rfl

/-- An item is seen by its component. -/
theorem count_project [DecidableEq α] (i : ι) (a : α) (tr : List (ι × α)) :
    (project i tr).count a = tr.count (i, a) := by
  induction tr with
  | nil => rfl
  | cons x tr ih =>
    rw [project_cons, List.count_append, ih, List.count_cons, Nat.add_comm]
    congr 1
    obtain ⟨j, b⟩ := x
    by_cases hj : j = i
    · subst hj
      rw [if_pos rfl, List.count_singleton]
      simp only [beq_iff_eq, Prod.mk.injEq, true_and]
    · rw [if_neg hj, List.count_nil]
      simp only [beq_iff_eq, Prod.mk.injEq, hj, false_and, if_false]

/-- **What the components see determines the items** of a trace. -/
theorem perm_of_project {tr tr' : List (ι × α)}
    (h : ∀ i, (project i tr).Perm (project i tr')) : tr.Perm tr' := by
  classical
  refine List.perm_iff_count.2 fun x => ?_
  rw [← count_project, ← count_project]
  exact (h x.1).count_eq x.2

end Interleave

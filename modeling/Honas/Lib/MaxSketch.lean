/-
  Sketches that keep a maximum in each of their registers.

  An entry is a register and a value; adding it raises the register to the
  value.  The registers after any sequence of additions are the pointwise
  supremum of the entries (`addAll_eq`), so a sketch is a homomorphism from
  concatenation to the supremum (`ofList_append`), and depends neither on the
  order nor on the repetition of its entries (`ofList_congr`).
-/
import Mathlib

namespace MaxSketch

variable {ι V : Type*} [DecidableEq ι] [SemilatticeSup V]

/-- Raise a register to a value. -/
def raise (regs : ι → V) (e : ι × V) : ι → V := Function.update regs e.1 (regs e.1 ⊔ e.2)

/-- Add a sequence of entries. -/
def addAll (regs : ι → V) (es : List (ι × V)) : ι → V := es.foldl raise regs

@[simp] theorem addAll_nil (regs : ι → V) : addAll regs [] = regs := rfl
@[simp] theorem addAll_cons (regs : ι → V) (e : ι × V) (es : List (ι × V)) :
    addAll regs (e :: es) = addAll (raise regs e) es := rfl

theorem raise_apply (regs : ι → V) (e : ι × V) (i : ι) :
    raise regs e i = if i = e.1 then regs i ⊔ e.2 else regs i := by
  unfold raise
  by_cases h : i = e.1
  · subst h; simp
  · simp [h]

theorem addAll_append (regs : ι → V) (a b : List (ι × V)) :
    addAll regs (a ++ b) = addAll (addAll regs a) b := List.foldl_append

theorem addAll_le_iff {es : List (ι × V)} {i : ι} {v : V} : ∀ {regs : ι → V},
    addAll regs es i ≤ v ↔ regs i ≤ v ∧ ∀ e ∈ es, e.1 = i → e.2 ≤ v := by
  induction es with
  | nil => intro regs; simp
  | cons e es ih =>
    intro regs
    rw [addAll_cons, ih, raise_apply, List.forall_mem_cons]
    by_cases h : i = e.1
    · subst h; simp [and_assoc]
    · simp [h, Ne.symm h]

variable [OrderBot V]

/-- The sketch of a sequence of entries. -/
def ofList (es : List (ι × V)) : ι → V := addAll (fun _ => ⊥) es

theorem ofList_le_iff {es : List (ι × V)} {i : ι} {v : V} :
    ofList es i ≤ v ↔ ∀ e ∈ es, e.1 = i → e.2 ≤ v := by
  simp [ofList, addAll_le_iff]

/-- **Adding a sequence** joins its sketch to the registers. -/
theorem addAll_eq (regs : ι → V) (es : List (ι × V)) (i : ι) :
    addAll regs es i = regs i ⊔ ofList es i := by
  refine eq_of_forall_ge_iff fun v => ?_
  rw [addAll_le_iff, sup_le_iff, ofList_le_iff]

theorem ofList_eq_bot {es : List (ι × V)} {i : ι} (h : ∀ e ∈ es, e.1 ≠ i) : ofList es i = ⊥ :=
  le_bot_iff.1 (ofList_le_iff.2 fun e he hi => absurd hi (h e he))

theorem ofList_append (a b : List (ι × V)) (i : ι) :
    ofList (a ++ b) i = ofList a i ⊔ ofList b i := by
  rw [ofList, addAll_append, addAll_eq]; rfl

/-- **A sketch depends only on which entries occur.** -/
theorem ofList_congr {a b : List (ι × V)} (h : ∀ e, e ∈ a ↔ e ∈ b) : ofList a = ofList b := by
  funext i
  refine eq_of_forall_ge_iff fun v => ?_
  rw [ofList_le_iff, ofList_le_iff]
  exact ⟨fun ha e he => ha e ((h e).2 he), fun hb e he => hb e ((h e).1 he)⟩

/-- In a linear order a register holds the greatest of its entries. -/
theorem isGreatest_ofList {V : Type*} [LinearOrder V] [OrderBot V] (es : List (ι × V)) (i : ι) :
    IsGreatest (insert ⊥ {v | (i, v) ∈ es}) (ofList es i) := by
  constructor
  · induction es using List.reverseRecOn with
    | nil => exact Set.mem_insert _ _
    | append_singleton es e ih =>
      have hone : ofList [e] i = if i = e.1 then e.2 else ⊥ := by
        change raise (fun _ => ⊥) e i = _
        rw [raise_apply, bot_sup_eq]
      rw [ofList_append]
      rcases le_total (ofList [e] i) (ofList es i) with h | h
      · rw [sup_eq_left.2 h]
        exact ih.imp id (List.mem_append_left _)
      · rw [sup_eq_right.2 h, hone]
        split_ifs with hi
        · refine Set.mem_insert_of_mem _ (List.mem_append_right _ ?_)
          rw [hi]
          exact List.mem_singleton_self e
        · exact Set.mem_insert _ _
  · rintro v (rfl | hv)
    · exact bot_le
    · exact ofList_le_iff.1 le_rfl (i, v) hv rfl

/-! ## Comparing sketches -/

section LinearOrder

variable {V : Type*} [LinearOrder V] [OrderBot V]

/-- A value is reached exactly by an entry. -/
theorem le_ofList_iff {es : List (ι × V)} {i : ι} {v : V} (hv : v ≠ ⊥) :
    v ≤ ofList es i ↔ ∃ e ∈ es, e.1 = i ∧ v ≤ e.2 := by
  constructor
  · intro h
    rcases (isGreatest_ofList es i).1 with hbot | hmem
    · exact absurd (le_bot_iff.1 (h.trans_eq hbot)) hv
    · exact ⟨_, hmem, rfl, h⟩
  · rintro ⟨e, he, rfl, hle⟩
    exact hle.trans (ofList_le_iff.1 le_rfl e he rfl)

/-- Every entry of `a` has one of `b` for the same register that is not less. -/
def Dominated (a b : List (ι × V)) : Prop := ∀ e ∈ a, ∃ e' ∈ b, e'.1 = e.1 ∧ e.2 ≤ e'.2

theorem ofList_le_ofList_iff {a b : List (ι × V)} (ha : ∀ e ∈ a, e.2 ≠ ⊥) :
    (∀ i, ofList a i ≤ ofList b i) ↔ Dominated a b := by
  constructor
  · intro h e he
    exact (le_ofList_iff (ha e he)).1 (ofList_le_iff.1 (h e.1) e he rfl)
  · intro h i
    refine ofList_le_iff.2 fun e he hi => ?_
    rw [← hi]
    exact (le_ofList_iff (ha e he)).2 (h e he)

/-- **Two sketches agree** exactly if their entries dominate each other. -/
theorem ofList_eq_iff {a b : List (ι × V)} (ha : ∀ e ∈ a, e.2 ≠ ⊥) (hb : ∀ e ∈ b, e.2 ≠ ⊥) :
    ofList a = ofList b ↔ Dominated a b ∧ Dominated b a := by
  rw [← ofList_le_ofList_iff ha, ← ofList_le_ofList_iff hb]
  constructor
  · intro h
    exact ⟨fun i => (congrFun h i).le, fun i => (congrFun h i).ge⟩
  · rintro ⟨hab, hba⟩
    funext i
    exact le_antisymm (hab i) (hba i)

end LinearOrder

end MaxSketch

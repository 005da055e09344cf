/-
  Banks of filters.

  An element is stored in a bank by setting, in each of some chosen filters,
  the bits that the element has there.  What a bank contains is a function of
  the log of the stored elements: concatenating logs unites the contents
  (`contents_append`), the order and the repetition of the entries do not
  matter (`contents_congr`), and an element that was stored is found in all
  the filters it was stored in (`hit_of_mem`), also after any further storing
  (`Hit.mono`).
-/
import Mathlib

namespace FilterBank

variable {F E B : Type*}

/-- An element, and the filters it is stored in. -/
structure Entry (F E : Type*) where
  filters : List F
  element : E

/-- The bits that are set after storing the entries of a log. -/
def contents (offsets : F → E → Set B) (log : List (Entry F E)) : Set (F × B) :=
  {x | ∃ e ∈ log, x.1 ∈ e.filters ∧ x.2 ∈ offsets x.1 e.element}

variable {offsets : F → E → Set B}

@[simp] theorem contents_nil : contents offsets [] = ∅ := by
  ext x; simp [contents]

/-- **Concatenating logs unites the contents.** -/
theorem contents_append (a b : List (Entry F E)) :
    contents offsets (a ++ b) = contents offsets a ∪ contents offsets b := by
  ext x
  simp only [contents, List.mem_append, Set.mem_ofPred_eq, Set.mem_union, or_and_right, exists_or]

/-- **Order and repetition do not matter.** -/
theorem contents_congr {a b : List (Entry F E)} (h : ∀ e, e ∈ a ↔ e ∈ b) :
    contents offsets a = contents offsets b := by
  ext x
  simp only [contents, Set.mem_ofPred_eq, h]

/-- All bits of an element are set in a filter. -/
def Hit (offsets : F → E → Set B) (bank : Set (F × B)) (f : F) (d : E) : Prop :=
  ∀ b ∈ offsets f d, (f, b) ∈ bank

/-- **No false negatives.** -/
theorem hit_of_mem {log : List (Entry F E)} {e : Entry F E} {f : F} (he : e ∈ log)
    (hf : f ∈ e.filters) : Hit offsets (contents offsets log) f e.element :=
  fun _ hb => ⟨e, he, hf, hb⟩

theorem Hit.mono {bank bank' : Set (F × B)} {f : F} {d : E} (h : Hit offsets bank f d)
    (hb : bank ⊆ bank') : Hit offsets bank' f d :=
  fun b hd => hb (h b hd)

end FilterBank

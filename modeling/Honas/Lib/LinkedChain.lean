/-
  Doubly linked chains.

  The nodes of a memory have links to the node before and to the node behind them.
  `Chain` says that some nodes are linked in the order of a list.  Linking a node in at
  either end, and unlinking one, are assignments to the links of its neighbours:

  * `Chain.push`, `Chain.concat`: a node is put in front of the first or behind the last;
  * `Chain.remove`: a node is taken out.
-/
import Mathlib

namespace LinkedChain

/-- The links of a node: to the node before it, and to the one behind it. -/
@[ext] structure Link (ι : Type*) where
  prev : Option ι
  next : Option ι

variable {ι : Type*}

/-- The nodes of a list are linked in its order, where `before` comes before the first node
    and `after` behind the last one. -/
def Chain (links : ι → Option (Link ι)) : Option ι → List ι → Option ι → Prop
  | _, [], _ => True
  | before, x :: xs, after =>
    links x = some ⟨before, xs.head?.or after⟩ ∧ Chain links (some x) xs after

variable {links links' : ι → Option (Link ι)} {before after : Option ι} {x : ι} {xs ys : List ι}

@[simp] theorem chain_nil : Chain links before [] after := trivial

theorem chain_cons : Chain links before (x :: xs) after ↔
    links x = some ⟨before, xs.head?.or after⟩ ∧ Chain links (some x) xs after := Iff.rfl

/-- Only the links of the nodes matter. -/
theorem Chain.congr : ∀ {xs : List ι} {before : Option ι}, Chain links before xs after →
    (∀ y ∈ xs, links' y = links y) → Chain links' before xs after
  | [], _, _, _ => trivial
  | _ :: _, _, h, hsame => by
    rw [List.forall_mem_cons] at hsame
    exact ⟨hsame.1.trans h.1, h.2.congr hsame.2⟩

/-- Nodes are linked. -/
theorem Chain.isSome : ∀ {xs : List ι} {before : Option ι}, Chain links before xs after →
    ∀ y ∈ xs, ∃ link, links y = some link
  | [], _, _, y, hy => absurd hy List.not_mem_nil
  | _ :: _, _, h, y, hy => by
    rcases List.mem_cons.1 hy with rfl | hy
    · exact ⟨_, h.1⟩
    · exact h.2.isSome y hy

/-- **A chain of two parts.** -/
theorem chain_append : ∀ {xs : List ι} {before : Option ι},
    Chain links before (xs ++ ys) after ↔
      Chain links before xs (ys.head?.or after) ∧ Chain links (xs.getLast?.or before) ys after
  | [], before => by
    rw [List.nil_append, List.getLast?_nil, Option.none_or]
    exact (and_iff_right trivial).symm
  | x :: xs, before => by
    have hlast : (x :: xs).getLast?.or before = xs.getLast?.or (some x) := by
      rw [List.getLast?_cons, Option.some_or]
      cases xs.getLast? <;> rfl
    rw [List.cons_append, chain_cons, chain_append, chain_cons, List.head?_append, Option.or_assoc,
      hlast, and_assoc]

variable [DecidableEq ι]

/-! ## Assigning to links -/

/-- The node, if there is one, gets another node before it. -/
def setPrev (links : ι → Option (Link ι)) (node before : Option ι) : ι → Option (Link ι) :=
  fun y => if some y = node then (links y).map fun link => { link with prev := before } else links y

/-- The node, if there is one, gets another node behind it. -/
def setNext (links : ι → Option (Link ι)) (node after : Option ι) : ι → Option (Link ι) :=
  fun y => if some y = node then (links y).map fun link => { link with next := after } else links y

theorem setPrev_of_ne {node : Option ι} (h : some x ≠ node) (before : Option ι) :
    setPrev links node before x = links x := if_neg h

theorem setNext_of_ne {node : Option ι} (h : some x ≠ node) (after : Option ι) :
    setNext links node after x = links x := if_neg h

/-- The first node gets another one before it. -/
theorem Chain.setPrev (h : Chain links before xs after) (hnodup : xs.Nodup) (before' : Option ι) :
    Chain (setPrev links xs.head? before') before' xs after := by
  cases xs with
  | nil => trivial
  | cons x xs =>
    obtain ⟨hx, hxs⟩ := h
    obtain ⟨hnotin, -⟩ := List.nodup_cons.1 hnodup
    refine ⟨?_, hxs.congr fun y hy => setPrev_of_ne ?_ _⟩
    · rw [LinkedChain.setPrev, List.head?_cons, if_pos rfl, hx, Option.map_some]
    · rintro ⟨⟩
      exact hnotin hy

/-- The last node gets another one behind it. -/
theorem Chain.setNext (h : Chain links before xs after) (hnodup : xs.Nodup) (after' : Option ι) :
    Chain (setNext links xs.getLast? after') before xs after' := by
  rcases List.eq_nil_or_concat xs with rfl | ⟨xs, x, rfl⟩
  · trivial
  · rw [List.concat_eq_append] at h hnodup ⊢
    obtain ⟨hxs, hx, -⟩ := chain_append.1 h
    rw [List.getLast?_concat]
    have hnotin : x ∉ xs := fun hmem => by
      have hdisjoint := List.disjoint_of_nodup_append hnodup
      exact hdisjoint hmem (List.mem_singleton_self x)
    refine chain_append.2 ⟨hxs.congr fun y hy => setNext_of_ne ?_ _, ?_, trivial⟩
    · rintro ⟨⟩
      exact hnotin hy
    · rw [LinkedChain.setNext, if_pos rfl, hx, Option.map_some]
      rfl

/-! ## Linking in and unlinking -/

/-- **A node is put in front.** -/
theorem Chain.push (h : Chain links none xs after) (hnodup : xs.Nodup) (hx : x ∉ xs) :
    Chain (LinkedChain.setPrev (Function.update links x (some ⟨none, xs.head?.or after⟩)) xs.head?
      (some x)) none (x :: xs) after := by
  have hrest : Chain (Function.update links x (some ⟨none, xs.head?.or after⟩)) none xs after :=
    h.congr fun y hy => Function.update_of_ne (ne_of_mem_of_not_mem hy hx) _ _
  refine ⟨?_, hrest.setPrev hnodup (some x)⟩
  rw [setPrev_of_ne fun hhead => hx (List.mem_of_head? hhead.symm), Function.update_self]

/-- **A node is put behind.** -/
theorem Chain.concat (h : Chain links before xs none) (hnodup : xs.Nodup) (hx : x ∉ xs) :
    Chain (Function.update (LinkedChain.setNext links xs.getLast? (some x)) x
      (some ⟨xs.getLast?.or before, none⟩)) before (xs ++ [x]) none := by
  refine chain_append.2 ⟨?_, ?_, trivial⟩
  · exact (h.setNext hnodup (some x)).congr
      fun y hy => Function.update_of_ne (ne_of_mem_of_not_mem hy hx) _ _
  · exact Function.update_self ..

/-- **A node is taken out.** -/
theorem Chain.remove (h : Chain links none (xs ++ x :: ys) none) (hnodup : (xs ++ x :: ys).Nodup) :
    Chain (LinkedChain.setPrev (LinkedChain.setNext links xs.getLast? ys.head?) ys.head? xs.getLast?)
      none (xs ++ ys) none := by
  obtain ⟨hxs, -, hys⟩ := chain_append.1 h
  obtain ⟨hnxs, hnys, hdisjoint⟩ := List.nodup_append'.1 hnodup
  have hne : ∀ y ∈ xs, ∀ z ∈ ys, y ≠ z := fun y hy z hz hyz =>
    hdisjoint hy (List.mem_cons_of_mem x (hyz ▸ hz))
  obtain ⟨-, hnys⟩ := List.nodup_cons.1 hnys
  refine chain_append.2 ⟨?_, ?_⟩
  · rw [Option.or_none]
    refine (hxs.setNext hnxs ys.head?).congr fun y hy => setPrev_of_ne ?_ _
    exact fun hhead => hne y hy y (List.mem_of_head? hhead.symm) rfl
  · rw [Option.or_none]
    have hys' : Chain (LinkedChain.setNext links xs.getLast? ys.head?) (some x) ys none := by
      refine hys.congr fun y hy => setNext_of_ne ?_ _
      exact fun hlast => hne y (List.mem_of_getLast? hlast.symm) y hy rfl
    exact hys'.setPrev hnys xs.getLast?

/-! ## The ends of what remains -/

omit [DecidableEq ι] in
/-- The first node of the rest: the one behind if nothing is in front, or the first one. -/
theorem head?_remove {head : ι} (h : (xs ++ x :: ys).head? = some head) :
    (if xs.getLast? = none then ys.head? else some head) = (xs ++ ys).head? := by
  cases xs with
  | nil => exact if_pos rfl
  | cons a xs =>
    rw [if_neg (by rw [List.getLast?_cons]; exact Option.some_ne_none _), ← h]
    rfl

/-- The last node of the rest: the one in front if the last one is taken out. -/
theorem getLast?_remove (hnodup : (xs ++ x :: ys).Nodup) {tail : ι}
    (h : (xs ++ x :: ys).getLast? = some tail) :
    (if x = tail then xs.getLast? else some tail) = (xs ++ ys).getLast? := by
  rcases List.eq_nil_or_concat ys with rfl | ⟨ys, y, rfl⟩
  · rw [List.getLast?_concat] at h
    rw [if_pos (Option.some.inj h), List.append_nil]
  · rw [List.concat_eq_append] at h hnodup ⊢
    rw [← List.cons_append, ← List.append_assoc] at h hnodup
    rw [List.getLast?_concat] at h
    obtain rfl := Option.some.inj h
    have hne : x ≠ y := fun heq => List.disjoint_of_nodup_append hnodup
      (List.mem_append_right xs List.mem_cons_self) (List.mem_singleton.2 heq)
    rw [if_neg hne, ← List.append_assoc, List.getLast?_concat]

end LinkedChain

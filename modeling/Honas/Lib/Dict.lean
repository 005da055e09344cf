/-
  Dictionaries that keep the order in which their keys were first set, as lists of items.

  `mem_ofItems`: after a sequence of assignments a key has the value of the last one.
-/
import Mathlib

namespace Dict

variable {κ α : Type*} [DecidableEq κ]

/-- Set a key: a new one goes to the end, and one that is there keeps its place. -/
def set (k : κ) (a : α) : List (κ × α) → List (κ × α)
  | [] => [(k, a)]
  | item :: d => if item.1 = k then (k, a) :: d else item :: set k a d

/-- A dictionary after a sequence of assignments. -/
def ofItems (items : List (κ × α)) : List (κ × α) :=
  items.foldl (fun d item => set item.1 item.2 d) []

theorem ofItems_concat (items : List (κ × α)) (k : κ) (a : α) :
    ofItems (items ++ [(k, a)]) = set k a (ofItems items) := by
  rw [ofItems, List.foldl_append, List.foldl_cons, List.foldl_nil, ofItems]

theorem mem_keys_set {k : κ} {a : α} {key : κ} : ∀ {d : List (κ × α)},
    key ∈ (set k a d).map Prod.fst ↔ key = k ∨ key ∈ d.map Prod.fst
  | [] => by rw [set, List.map_singleton, List.mem_singleton, List.map_nil]; simp
  | item :: d => by
    rw [set]
    split_ifs with h
    · rw [List.map_cons, List.map_cons, List.mem_cons, List.mem_cons, h]
      tauto
    · rw [List.map_cons, List.map_cons, List.mem_cons, List.mem_cons, mem_keys_set]
      tauto

theorem nodup_set {k : κ} {a : α} : ∀ {d : List (κ × α)}, (d.map Prod.fst).Nodup →
    ((set k a d).map Prod.fst).Nodup
  | [], _ => List.nodup_singleton k
  | item :: d, h => by
    rw [List.map_cons, List.nodup_cons] at h
    rw [set]
    split_ifs with hk
    · rw [List.map_cons, List.nodup_cons, ← hk]
      exact h
    · rw [List.map_cons, List.nodup_cons, mem_keys_set]
      exact ⟨not_or.2 ⟨hk, h.1⟩, nodup_set h.2⟩

/-- The value of a key is the one that was set. -/
theorem mem_set {k : κ} {a : α} {key : κ} {b : α} : ∀ {d : List (κ × α)},
    (d.map Prod.fst).Nodup → ((key, b) ∈ set k a d ↔ if key = k then b = a else (key, b) ∈ d)
  | [], _ => by
    rw [set, List.mem_singleton, Prod.mk.injEq]
    split_ifs with h <;> simp [h]
  | item :: d, hd => by
    rw [List.map_cons, List.nodup_cons] at hd
    rw [set]
    split_ifs with hitem hkey hkey
    · -- the rest has no item of the key
      have hrest : (key, b) ∉ d := fun h => hd.1 (by
        rw [hitem, ← hkey]
        exact List.mem_map_of_mem (f := Prod.fst) h)
      rw [List.mem_cons, or_iff_left hrest, Prod.mk.injEq, and_iff_right hkey]
    · rw [List.mem_cons, List.mem_cons, or_iff_right fun h => hkey (Prod.mk.inj h).1,
        or_iff_right]
      rintro rfl
      exact hkey hitem
    · rw [List.mem_cons, mem_set hd.2, if_pos hkey, or_iff_right]
      rintro rfl
      exact hitem hkey
    · rw [List.mem_cons, mem_set hd.2, if_neg hkey, List.mem_cons]

theorem nodup_ofItems (items : List (κ × α)) : ((ofItems items).map Prod.fst).Nodup := by
  induction items using List.reverseRecOn with
  | nil => exact List.nodup_nil
  | append_singleton items item ih => rw [ofItems_concat]; exact nodup_set ih

/-- **The last assignment** of a key counts. -/
theorem mem_ofItems {items : List (κ × α)} {key : κ} {b : α} :
    (key, b) ∈ ofItems items ↔ items.reverse.find? (fun item => item.1 = key) = some (key, b) := by
  induction items using List.reverseRecOn with
  | nil => exact iff_of_false List.not_mem_nil fun h => by cases h
  | append_singleton items item ih =>
    obtain ⟨k, a⟩ := item
    rw [ofItems_concat, mem_set (nodup_ofItems items), List.reverse_append, List.reverse_singleton,
      List.singleton_append, List.find?_cons]
    by_cases h : key = k
    · subst h
      simp [eq_comm]
    · rw [if_neg h, ih]
      simp [Ne.symm h]

/-- Each key that was set is there. -/
theorem mem_keys_ofItems {items : List (κ × α)} {key : κ} :
    key ∈ (ofItems items).map Prod.fst ↔ key ∈ items.map Prod.fst := by
  induction items using List.reverseRecOn with
  | nil => rfl
  | append_singleton items item ih =>
    obtain ⟨k, a⟩ := item
    rw [ofItems_concat, mem_keys_set, ih, List.map_append, List.mem_append, List.map_singleton,
      List.mem_singleton, or_comm]

/-- The items are among those that were set. -/
theorem mem_of_mem_ofItems {items : List (κ × α)} {item : κ × α} (h : item ∈ ofItems items) :
    item ∈ items := by
  have hfind := mem_ofItems.1 (show (item.1, item.2) ∈ ofItems items from h)
  exact List.mem_reverse.1 (List.mem_of_find?_eq_some hfind)

end Dict

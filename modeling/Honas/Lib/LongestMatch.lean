/-
  Longest matches in a table that is searched by key.

  A table keeps the first entry of each key (`insertNew`), so a lookup in it is a
  lookup in the list of all entries; where there is no room for some entries, the
  history of the attempts tells which keys it has (`stored`).  To find the longest
  entry that matches, one asks for one key per length, from the longest to the
  shortest (`searchDown`); bounds on the lengths that are updated with every entry
  hold for all of them (`Bounds`).

  `isLongest_searchDown`: the search finds the longest entry whose key is asked for.
  `isLongest_iff`: when that is also the longest one of another relation.
-/
import Mathlib

namespace LongestMatch

variable {α κ : Type*} [DecidableEq κ] {key : α → κ} {len : α → ℕ}

/-! ## Tables that keep the first entry of a key -/

/-- The entry of a key. -/
def lookup (key : α → κ) (t : List α) (k : κ) : Option α := t.find? fun a => decide (key a = k)

/-- Add an entry, if there is none with its key. -/
def insertNew (key : α → κ) (t : List α) (a : α) : List α :=
  if (lookup key t (key a)).isSome then t else t ++ [a]

theorem lookup_append (t : List α) (a : α) (k : κ) :
    lookup key (t ++ [a]) k = (lookup key t k).or (if key a = k then some a else none) := by
  rw [lookup, List.find?_append, lookup, List.find?_singleton]
  simp only [decide_eq_true_eq]

theorem lookup_eq_some {t : List α} {k : κ} {a : α} (h : lookup key t k = some a) :
    a ∈ t ∧ key a = k :=
  ⟨List.mem_of_find?_eq_some h, by simpa using List.find?_some h⟩

theorem lookup_eq_none {t : List α} {k : κ} : lookup key t k = none ↔ ∀ a ∈ t, key a ≠ k := by
  simp [lookup]

/-- **A table of first entries** is looked up like the list of all entries. -/
theorem lookup_insertNew {t as : List α} (h : ∀ k, lookup key t k = lookup key as k) (a : α) (k : κ) :
    lookup key (insertNew key t a) k = lookup key (as ++ [a]) k := by
  rw [insertNew, lookup_append]
  split_ifs with hs hk hk
  · -- the key of the entry is in the table already
    subst hk
    obtain ⟨b, hb⟩ := Option.isSome_iff_exists.1 hs
    rw [← h, hb]
    rfl
  · rw [h, Option.or_none]
  · rw [lookup_append, h, if_pos hk]
  · rw [lookup_append, h, if_neg hk]

theorem isSome_lookup {t : List α} {k : κ} : (lookup key t k).isSome ↔ k ∈ t.map key := by
  simp [lookup, List.find?_isSome]

/-! ## Tables that cannot take every entry

A history lists the attempts to add a key, newest first, each with whether there was
room for a new entry. -/

/-- The keys in the table, newest first. -/
def stored (h : List (κ × Bool)) : List κ := ((h.filter fun a => a.2).map Prod.fst).dedup

/-- The number of attempts to add a key that is in the table. -/
def repeats : List (κ × Bool) → ℕ
  | [] => 0
  | (k, _) :: h => repeats h + if k ∈ stored h then 1 else 0

/-- The newest key did not get into the table. -/
def NewestLost : List (κ × Bool) → Prop
  | [] => False
  | (k, room) :: h => room = false ∧ (k, true) ∉ h

theorem mem_stored {h : List (κ × Bool)} {k : κ} : k ∈ stored h ↔ (k, true) ∈ h := by
  simp [stored]

theorem stored_full (h : List (κ × Bool)) (k : κ) : stored ((k, false) :: h) = stored h := rfl

theorem stored_of_mem {h : List (κ × Bool)} {k : κ} (hk : k ∈ stored h) (room : Bool) :
    stored ((k, room) :: h) = stored h := by
  cases room with
  | false => rfl
  | true => exact List.dedup_cons_of_mem (List.mem_dedup.1 hk)

theorem stored_of_not_mem {h : List (κ × Bool)} {k : κ} (hk : k ∉ stored h) :
    stored ((k, true) :: h) = k :: stored h :=
  List.dedup_cons_of_notMem fun hmem => hk (List.mem_dedup.2 hmem)

/-- **No attempt is repeated** if no key is added again after it got into the table. -/
theorem repeats_eq_zero : ∀ {h : List (κ × Bool)}, repeats h = 0 ↔
    h.Pairwise fun later earlier => later.1 = earlier.1 → earlier.2 = false
  | [] => iff_of_true rfl List.Pairwise.nil
  | (k, room) :: h => by
    have hhead : (if k ∈ stored h then 1 else 0) = 0 ↔ ∀ a ∈ h, k = a.1 → a.2 = false := by
      rw [ite_eq_right_iff, mem_stored]
      constructor
      · rintro hk ⟨k', room'⟩ ha rfl
        cases room' with
        | false => rfl
        | true => exact absurd (hk ha) one_ne_zero
      · intro hall hk
        cases hall _ hk rfl
    rw [repeats, Nat.add_eq_zero_iff, hhead, repeats_eq_zero, List.pairwise_cons, and_comm]

/-! ## Bounds on the lengths -/

/-- `lo` and `hi` bound the lengths, and are attained unless there are none. -/
structure Bounds (top : ℕ) (lens : List ℕ) (lo hi : ℕ) : Prop where
  le : ∀ l ∈ lens, lo ≤ l
  ge : ∀ l ∈ lens, l ≤ hi
  attained : lo = top ∨ lo ∈ lens
  attained' : hi = 0 ∨ hi ∈ lens

theorem Bounds.nil (top : ℕ) : Bounds top [] top 0 := ⟨nofun, nofun, Or.inl rfl, Or.inl rfl⟩

/-- **Bounds are kept** whatever the next length is. -/
theorem Bounds.append {top : ℕ} {lens : List ℕ} {lo hi : ℕ} (h : Bounds top lens lo hi) (l : ℕ) :
    Bounds top (lens ++ [l]) (min lo l) (max hi l) := by
  refine ⟨fun x hx => ?_, fun x hx => ?_, ?_, ?_⟩
  · rcases List.mem_append.1 hx with hx | hx
    · exact (min_le_left _ _).trans (h.le x hx)
    · exact List.mem_singleton.1 hx ▸ min_le_right _ _
  · rcases List.mem_append.1 hx with hx | hx
    · exact (h.ge x hx).trans (le_max_left _ _)
    · exact List.mem_singleton.1 hx ▸ le_max_right _ _
  · rcases min_choice lo l with hm | hm <;> rw [hm]
    · exact h.attained.imp id fun hmem => List.mem_append_left _ hmem
    · exact Or.inr (List.mem_append_right _ (List.mem_singleton_self l))
  · rcases max_choice hi l with hm | hm <;> rw [hm]
    · exact h.attained'.imp id fun hmem => List.mem_append_left _ hmem
    · exact Or.inr (List.mem_append_right _ (List.mem_singleton_self l))

theorem Bounds.lo_eq_zero {top : ℕ} {lens : List ℕ} {lo hi : ℕ} (h : Bounds top lens lo hi)
    (htop : top ≠ 0) : lo = 0 ↔ 0 ∈ lens := by
  constructor
  · rintro rfl
    exact h.attained.resolve_left htop.symm
  · exact fun h0 => Nat.le_zero.1 (h.le 0 h0)

theorem Bounds.hi_le {top : ℕ} {lens : List ℕ} {lo hi b : ℕ} (h : Bounds top lens lo hi)
    (hb : ∀ l ∈ lens, l ≤ b) : hi ≤ b := by
  rcases h.attained' with rfl | hmem
  · exact Nat.zero_le b
  · exact hb hi hmem

/-! ## Searching from the longest to the shortest -/

/-- Ask for the lengths from `hi` down to `lo`, until something is found. -/
def searchDown (find : ℕ → Option α) (lo : ℕ) : ℕ → Option α
  | 0 => if lo ≤ 0 then find 0 else none
  | i + 1 => if lo ≤ i + 1 then (find (i + 1)).or (searchDown find lo i) else none

theorem searchDown_eq_none {find : ℕ → Option α} {lo : ℕ} : ∀ {hi : ℕ},
    searchDown find lo hi = none → ∀ i, lo ≤ i → i ≤ hi → find i = none
  | 0, h, i, hlo, hhi => by
    obtain rfl := Nat.le_zero.1 hhi
    rwa [searchDown, if_pos hlo] at h
  | hi + 1, h, i, hlo, hhi => by
    rw [searchDown, if_pos (hlo.trans hhi), Option.or_eq_none_iff] at h
    rcases Nat.le_succ_iff.1 hhi with hle | rfl
    · exact searchDown_eq_none h.2 i hlo hle
    · exact h.1

theorem searchDown_eq_some {find : ℕ → Option α} {lo : ℕ} {a : α} : ∀ {hi : ℕ},
    searchDown find lo hi = some a → ∃ i, find i = some a ∧ ∀ j, i < j → j ≤ hi → find j = none
  | 0, h => by
    rw [searchDown] at h
    split_ifs at h
    exact ⟨0, h, fun j hj hle => by omega⟩
  | hi + 1, h => by
    rw [searchDown] at h
    split_ifs at h
    cases hf : find (hi + 1) with
    | some b =>
      rw [hf] at h
      exact ⟨hi + 1, hf.trans h, fun j hj hle => by omega⟩
    | none =>
      rw [hf, Option.none_or] at h
      obtain ⟨i, hi', hlong⟩ := searchDown_eq_some h
      refine ⟨i, hi', fun j hj hle => ?_⟩
      rcases Nat.le_succ_iff.1 hle with hle | rfl
      · exact hlong j hj hle
      · exact hf

/-! ## The longest entry -/

/-- The result is the first entry of its key among the longest ones that match, or
    nothing if none does. -/
def IsLongest (key : α → κ) (len : α → ℕ) (C : α → Prop) (as : List α) : Option α → Prop
  | none => ∀ a ∈ as, ¬ C a
  | some a => lookup key as (key a) = some a ∧ C a ∧ ∀ b ∈ as, C b → len b ≤ len a

theorem IsLongest.congr {C D : α → Prop} {as : List α} (h : ∀ a ∈ as, C a ↔ D a) {r : Option α}
    (hr : IsLongest key len C as r) : IsLongest key len D as r := by
  cases r with
  | none => exact fun a ha hD => hr a ha ((h a ha).2 hD)
  | some a =>
    obtain ⟨hfirst, hC, hlong⟩ := hr
    exact ⟨hfirst, (h a (lookup_eq_some hfirst).1).1 hC, fun b hb hD => hlong b hb ((h b hb).2 hD)⟩

/-- **The search finds the longest entry** whose key is the one asked for at its
    length. -/
theorem isLongest_searchDown {ask : ℕ → κ} (hlen : ∀ i a, key a = ask i → len a = i) {as : List α}
    {lo hi : ℕ} (hb : ∀ a ∈ as, key a = ask (len a) → lo ≤ len a ∧ len a ≤ hi) :
    IsLongest key len (fun a => key a = ask (len a)) as
      (searchDown (fun i => lookup key as (ask i)) lo hi) := by
  cases hs : searchDown (fun i => lookup key as (ask i)) lo hi with
  | none =>
    intro a ha hkey
    obtain ⟨h1, h2⟩ := hb a ha hkey
    exact lookup_eq_none.1 (searchDown_eq_none hs _ h1 h2) a ha hkey
  | some a =>
    obtain ⟨i, hfind, hlong⟩ := searchDown_eq_some hs
    obtain ⟨-, hkey⟩ := lookup_eq_some hfind
    have hi' := hlen i a hkey
    subst hi'
    refine ⟨by rw [hkey]; exact hfind, hkey, fun b hb' hkey' => ?_⟩
    by_contra hlt
    exact lookup_eq_none.1 (hlong _ (not_le.1 hlt) (hb b hb' hkey').2) b hb' hkey'

/-- Among finitely many matching entries there is a longest one. -/
theorem exists_longest {C : α → Prop} {as : List α} {a : α} (ha : a ∈ as) (hC : C a) :
    ∃ b ∈ as, C b ∧ len a ≤ len b ∧ ∀ c ∈ as, C c → len c ≤ len b := by
  have hfin : {b | b ∈ as ∧ C b}.Finite := as.finite_toSet.subset fun b hb => hb.1
  obtain ⟨b, ⟨hb, hCb⟩, hmax⟩ := Set.exists_max_image _ len hfin ⟨a, ha, hC⟩
  exact ⟨b, hb, hCb, hmax a ⟨ha, hC⟩, fun c hc hCc => hmax c ⟨hc, hCc⟩⟩

/-- **When the longest entry of one relation is the longest of another**: the longest
    ones of the other are related, and what is related without being so in the other
    is shorter than them. -/
theorem isLongest_iff {S C : α → Prop} {as : List α}
    (hS : ∀ a ∈ as, ∀ b ∈ as, S a → S b → len a = len b → key a = key b)
    (hC : ∀ a ∈ as, ∀ b ∈ as, C a → C b → len a = len b → key a = key b)
    (hSk : ∀ a ∈ as, ∀ b ∈ as, key a = key b → S a → S b)
    (hCk : ∀ a ∈ as, ∀ b ∈ as, key a = key b → C a → C b) {r : Option α}
    (hr : IsLongest key len S as r) :
    IsLongest key len C as r ↔ ∀ a ∈ as,
      (C a → (∀ b ∈ as, C b → len b ≤ len a) → S a) ∧
        (S a → C a ∨ ∃ b ∈ as, C b ∧ len a < len b) := by
  constructor
  · intro hrC a ha
    cases r with
    | none => exact ⟨fun hCa => absurd hCa (hrC a ha), fun hSa => absurd hSa (hr a ha)⟩
    | some m =>
      obtain ⟨hfirst, hSm, hlongS⟩ := hr
      obtain ⟨-, hCm, hlongC⟩ := hrC
      have hm := (lookup_eq_some hfirst).1
      constructor
      · intro hCa hlong
        have hlen : len m = len a := le_antisymm (hlong m hm hCm) (hlongC a ha hCa)
        exact hSk m hm a ha (hC m hm a ha hCm hCa hlen) hSm
      · intro hSa
        rcases (hlongS a ha hSa).lt_or_eq with hlt | heq
        · exact Or.inr ⟨m, hm, hCm, hlt⟩
        · exact Or.inl (hCk m hm a ha (hS m hm a ha hSm hSa heq.symm) hCm)
  · intro h
    cases r with
    | none =>
      intro a ha hCa
      obtain ⟨b, hb, hCb, -, hlong⟩ := exists_longest ha hCa
      exact hr b hb ((h b hb).1 hCb hlong)
    | some m =>
      obtain ⟨hfirst, hSm, hlongS⟩ := hr
      have hm := (lookup_eq_some hfirst).1
      have hle : ∀ b ∈ as, C b → len b ≤ len m := by
        intro b hb hCb
        obtain ⟨c, hc, hCc, hbc, hlong⟩ := exists_longest hb hCb
        exact hbc.trans (hlongS c hc ((h c hc).1 hCc hlong))
      refine ⟨hfirst, ?_, hle⟩
      rcases (h m hm).2 hSm with hCm | ⟨b, hb, hCb, hlt⟩
      · exact hCm
      · exact absurd (hle b hb hCb) (not_le.2 hlt)

end LongestMatch

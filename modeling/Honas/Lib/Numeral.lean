/-
  Signed decimal numerals.

  A numeral is white space, an optional sign and at least one digit, and
  nothing behind them (`IsNumeral`).  A scanner skips the white space, takes a
  sign if there is one and all digits that follow; it does not know what comes
  behind.

  `isNumeral_iff`: a text is a numeral exactly if the scanner finds a digit and
  leaves nothing, and its value is the scanned one.
-/
import Mathlib

namespace Numeral

/-- A numeral and its value. -/
inductive IsNumeral (space : Char → Bool) : List Char → ℤ → Prop
  | plain {ws ds} : (∀ c ∈ ws, space c) → ds ≠ [] → (∀ c ∈ ds, c.isDigit) →
      IsNumeral space (ws ++ ds) (Nat.ofDigitChars 10 ds 0)
  | plus {ws ds} : (∀ c ∈ ws, space c) → ds ≠ [] → (∀ c ∈ ds, c.isDigit) →
      IsNumeral space (ws ++ '+' :: ds) (Nat.ofDigitChars 10 ds 0)
  | minus {ws ds} : (∀ c ∈ ws, space c) → ds ≠ [] → (∀ c ∈ ds, c.isDigit) →
      IsNumeral space (ws ++ '-' :: ds) (-(Nat.ofDigitChars 10 ds 0 : ℤ))

/-- White space has no digits and no signs. -/
structure Spaces (space : Char → Bool) : Prop where
  digit : ∀ c : Char, c.isDigit → space c = false
  plus : space '+' = false
  minus : space '-' = false

variable (space : Char → Bool) (str : List Char)

/-! ## The scanner -/

/-- A minus sign comes first. -/
abbrev Negative : Prop := (str.dropWhile space).head? = some '-'

/-- The text behind the white space and the sign. -/
def unsigned : List Char :=
  let s := str.dropWhile space
  if s.head? = some '-' ∨ s.head? = some '+' then s.tail else s

/-- The digits. -/
def digits : List Char := (unsigned space str).takeWhile Char.isDigit

/-- The text behind the digits. -/
def rest : List Char := (unsigned space str).dropWhile Char.isDigit

/-- The number that the digits write. -/
def magnitude : ℕ := Nat.ofDigitChars 10 (digits space str) 0

/-- The number with its sign. -/
def value : ℤ := if Negative space str then -(magnitude space str : ℤ) else magnitude space str

variable {space str}

theorem length_rest_lt (h : digits space str ≠ []) : (rest space str).length < str.length := by
  have hs : (str.dropWhile space).length ≤ str.length := (List.dropWhile_suffix _).length_le
  have hu : (unsigned space str).length ≤ (str.dropWhile space).length := by
    unfold unsigned
    dsimp only
    split_ifs
    · rw [List.length_tail]
      omega
    · exact le_rfl
  have hsplit : (unsigned space str).length = (digits space str).length + (rest space str).length := by
    rw [digits, rest, ← List.length_append, List.takeWhile_append_dropWhile]
  have hpos := List.length_pos_of_ne_nil h
  omega

/-! ## Numerals -/

/-- Behind the white space of a numeral nothing is skipped. -/
theorem dropWhile_spaces {ws s : List Char} {c : Char} (hws : ∀ c ∈ ws, space c) (hc : space c = false) :
    (ws ++ c :: s).dropWhile space = c :: s := by
  rw [List.dropWhile_append_of_pos hws, List.dropWhile_cons_of_neg (by simp [hc])]

theorem scan_digits {ds : List Char} (hds : ∀ c ∈ ds, c.isDigit) :
    ds.takeWhile Char.isDigit = ds ∧ ds.dropWhile Char.isDigit = [] :=
  ⟨List.takeWhile_eq_self_iff.2 hds, List.dropWhile_eq_nil_iff.2 hds⟩

theorem IsNumeral.scan (hsp : Spaces space) {v : ℤ} (h : IsNumeral space str v) :
    digits space str ≠ [] ∧ rest space str = [] ∧ v = value space str := by
  cases h with
  | @plain ws ds hws hne hds =>
    obtain ⟨d, ds', rfl⟩ := List.exists_cons_of_ne_nil hne
    have hd : d.isDigit = true := hds d (List.mem_cons_self ..)
    have hdrop := dropWhile_spaces (s := ds') hws (hsp.digit d hd)
    have hminus : d ≠ '-' := fun h => absurd hd (by rw [h]; decide)
    have hplus : d ≠ '+' := fun h => absurd hd (by rw [h]; decide)
    have hu : unsigned space (ws ++ d :: ds') = d :: ds' := by
      simp [unsigned, hdrop, hminus, hplus]
    have hneg : ¬ Negative space (ws ++ d :: ds') := by
      simp [Negative, hdrop, hminus]
    obtain ⟨ht, hr⟩ := scan_digits hds
    rw [value, if_neg hneg, magnitude, digits, rest, hu, ht, hr]
    exact ⟨hne, rfl, rfl⟩
  | @plus ws ds hws hne hds =>
    have hdrop := dropWhile_spaces (s := ds) hws hsp.plus
    have hu : unsigned space (ws ++ '+' :: ds) = ds := by simp [unsigned, hdrop]
    have hneg : ¬ Negative space (ws ++ '+' :: ds) := by simp [Negative, hdrop]
    obtain ⟨ht, hr⟩ := scan_digits hds
    rw [value, if_neg hneg, magnitude, digits, rest, hu, ht, hr]
    exact ⟨hne, rfl, rfl⟩
  | @minus ws ds hws hne hds =>
    have hdrop := dropWhile_spaces (s := ds) hws hsp.minus
    have hu : unsigned space (ws ++ '-' :: ds) = ds := by simp [unsigned, hdrop]
    have hneg : Negative space (ws ++ '-' :: ds) := by simp [Negative, hdrop]
    obtain ⟨ht, hr⟩ := scan_digits hds
    rw [value, if_pos hneg, magnitude, digits, rest, hu, ht, hr]
    exact ⟨hne, rfl, rfl⟩

theorem isNumeral_of_scan (hd : digits space str ≠ []) (hr : rest space str = []) :
    IsNumeral space str (value space str) := by
  have hws : ∀ c ∈ str.takeWhile space, space c := fun c hc => List.mem_takeWhile_imp hc
  have hds : ∀ c ∈ digits space str, c.isDigit := fun c hc => List.mem_takeWhile_imp hc
  have hstr : str = str.takeWhile space ++ str.dropWhile space :=
    (List.takeWhile_append_dropWhile ..).symm
  have hu : unsigned space str = digits space str := by
    have h := List.takeWhile_append_dropWhile (p := Char.isDigit) (l := unsigned space str)
    rw [show (unsigned space str).dropWhile Char.isDigit = [] from hr, List.append_nil] at h
    exact h.symm
  by_cases hminus : (str.dropWhile space).head? = some '-'
  · have hs : str.dropWhile space = '-' :: digits space str := by
      rw [← hu, unsigned, if_pos (Or.inl hminus)]
      exact (List.cons_head?_tail hminus).symm
    have h := IsNumeral.minus hws hd hds
    rw [← hs, ← hstr] at h
    rw [value, if_pos hminus]
    exact h
  by_cases hplus : (str.dropWhile space).head? = some '+'
  · have hs : str.dropWhile space = '+' :: digits space str := by
      rw [← hu, unsigned, if_pos (Or.inr hplus)]
      exact (List.cons_head?_tail hplus).symm
    have h := IsNumeral.plus hws hd hds
    rw [← hs, ← hstr] at h
    rw [value, if_neg hminus]
    exact h
  · have hs : str.dropWhile space = digits space str := by
      rw [← hu, unsigned, if_neg (not_or.2 ⟨hminus, hplus⟩)]
    have h := IsNumeral.plain hws hd hds
    rw [← hs, ← hstr, hs] at h
    rw [value, if_neg hminus]
    exact h

/-- **Numerals** are the texts that the scanner reads to the end. -/
theorem isNumeral_iff (hsp : Spaces space) {v : ℤ} :
    IsNumeral space str v ↔ (digits space str ≠ [] ∧ rest space str = []) ∧ v = value space str := by
  constructor
  · intro h
    obtain ⟨hd, hr, hv⟩ := h.scan hsp
    exact ⟨⟨hd, hr⟩, hv⟩
  · rintro ⟨⟨hd, hr⟩, rfl⟩
    exact isNumeral_of_scan hd hr

end Numeral

/-
  The calendar date and time of day of a number of seconds since 1970, UTC.

  Days are counted off in consecutive blocks: 400-year eras of equal length, the
  years of an era, and the months of a year.  Where a day falls in blocks
  determines the day (`blockOf_sum`), so the date and time determine the time
  (`gmtime_injective`).
-/
import Mathlib

namespace Calendar

/-! ## Consecutive blocks -/

/-- The block in which `rest` falls, counting from block `i`, and what is left of it,
    after passing at most `fuel` blocks. -/
def blockOf (size : ℕ → ℕ) : (fuel i rest : ℕ) → ℕ × ℕ
  | 0, i, rest => (i, rest)
  | fuel + 1, i, rest =>
    if rest < size i then (i, rest) else blockOf size fuel (i + 1) (rest - size i)

/-- **Blocks count off.** -/
theorem blockOf_sum (size : ℕ → ℕ) : ∀ fuel i rest : ℕ,
    i ≤ (blockOf size fuel i rest).1 ∧
      rest = ∑ k ∈ Finset.Ico i (blockOf size fuel i rest).1, size k + (blockOf size fuel i rest).2
  | 0, i, rest => by simp [blockOf]
  | fuel + 1, i, rest => by
    rw [blockOf]
    split_ifs with h
    · simp
    · obtain ⟨hle, hsum⟩ := blockOf_sum size fuel (i + 1) (rest - size i)
      rw [Finset.sum_eq_sum_Ico_succ_bot (by omega)]
      omega

/-- With enough fuel, what is left is less than the block. -/
theorem blockOf_lt (size : ℕ → ℕ) : ∀ fuel i rest : ℕ,
    rest < ∑ k ∈ Finset.Ico i (i + fuel), size k →
    (blockOf size fuel i rest).1 < i + fuel ∧
      (blockOf size fuel i rest).2 < size (blockOf size fuel i rest).1
  | 0, i, rest, h => by simp at h
  | fuel + 1, i, rest, h => by
    rw [blockOf]
    split_ifs with hlt
    · exact ⟨by omega, hlt⟩
    · rw [Finset.sum_eq_sum_Ico_succ_bot (by omega)] at h
      obtain ⟨h1, h2⟩ := blockOf_lt size fuel (i + 1) (rest - size i)
        (by rw [show i + 1 + fuel = i + (fuel + 1) by omega]; omega)
      exact ⟨by omega, h2⟩

theorem blockOf_injective {size : ℕ → ℕ} {fuel i rest rest' : ℕ}
    (h : blockOf size fuel i rest = blockOf size fuel i rest') : rest = rest' := by
  rw [(blockOf_sum size fuel i rest).2, h, ← (blockOf_sum size fuel i rest').2]

/-! ## Dates -/

/-- The leap years of the Gregorian calendar. -/
def isLeap (year : ℕ) : Bool := year % 4 = 0 ∧ (year % 100 ≠ 0 ∨ year % 400 = 0)

def daysInYear (year : ℕ) : ℕ := if isLeap year then 366 else 365

/-- The days of a month, from 1. -/
def daysInMonth (year month : ℕ) : ℕ :=
  match month with
  | 2 => if isLeap year then 29 else 28
  | 4 | 6 | 9 | 11 => 30
  | _ => 31

/-- The days of 400 years. -/
def eraDays : ℕ := 146097

/-- A calendar date and a time of day. -/
structure Tm where
  year : ℤ
  mon : ℕ
  mday : ℕ
  hour : ℕ
  min : ℕ
  sec : ℕ
deriving DecidableEq

/-- The date and time, UTC, of a number of seconds since 1970. -/
def gmtime (time : ℤ) : Tm :=
  let days := time / 86400
  let secs := (time % 86400).toNat
  let era := days / eraDays
  let (year, yday) := blockOf daysInYear 400 1970 (days % eraDays).toNat
  let (mon, mday) := blockOf (daysInMonth year) 12 1 yday
  { year := year + 400 * era, mon, mday := mday + 1
    hour := secs / 3600, min := secs / 60 % 60, sec := secs % 60 }

theorem sum_daysInYear : ∑ k ∈ Finset.Ico 1970 (1970 + 400), daysInYear k = eraDays := by decide +kernel

theorem sum_daysInMonth (year : ℕ) :
    ∑ k ∈ Finset.Ico 1 (1 + 12), daysInMonth year k = daysInYear year := by
  have h : Finset.Ico 1 (1 + 12) = {1, 2, 3, 4, 5, 6, 7, 8, 9, 10, 11, 12} := by decide
  rw [h, daysInYear]
  cases hl : isLeap year <;> simp [daysInMonth, hl]

theorem daysInMonth_le (year month : ℕ) : daysInMonth year month ≤ 31 := by
  unfold daysInMonth
  split
  · split_ifs <;> decide
  all_goals decide

section

variable (time : ℤ)

/-- The year of an era. -/
theorem gmtime_year : (blockOf daysInYear 400 1970 (time / 86400 % eraDays).toNat).1 < 2370 ∧
    (blockOf daysInYear 400 1970 (time / 86400 % eraDays).toNat).2 <
      daysInYear (blockOf daysInYear 400 1970 (time / 86400 % eraDays).toNat).1 := by
  refine blockOf_lt _ _ _ _ ?_
  rw [sum_daysInYear]
  unfold eraDays
  omega

theorem gmtime_ranges : (1 ≤ (gmtime time).mon ∧ (gmtime time).mon ≤ 12) ∧
    (1 ≤ (gmtime time).mday ∧ (gmtime time).mday ≤ 31) ∧ (gmtime time).hour < 24 ∧
    (gmtime time).min < 60 ∧ (gmtime time).sec < 60 := by
  obtain ⟨-, hyday⟩ := gmtime_year time
  unfold gmtime
  rcases hy : blockOf daysInYear 400 1970 (time / 86400 % eraDays).toNat with ⟨year, yday⟩
  rw [hy] at hyday
  rw [← sum_daysInMonth] at hyday
  obtain ⟨hmon, hmday⟩ := blockOf_lt (daysInMonth year) 12 1 yday hyday
  have hle := (blockOf_sum (daysInMonth year) 12 1 yday).1
  rcases hm : blockOf (daysInMonth year) 12 1 yday with ⟨mon, mday⟩
  rw [hm] at hmon hmday hle
  have h31 := daysInMonth_le year mon
  simp only [hy, hm]
  dsimp only at hle hmon hmday
  exact ⟨⟨hle, by omega⟩, ⟨by omega, by omega⟩, by omega, by omega, by omega⟩

end

/-- **The date and time determine the time.** -/
theorem gmtime_injective : Function.Injective gmtime := by
  intro s t h
  obtain ⟨hs, -⟩ := gmtime_year s
  obtain ⟨ht, -⟩ := gmtime_year t
  have hs' := (blockOf_sum daysInYear 400 1970 (s / 86400 % eraDays).toNat).1
  have ht' := (blockOf_sum daysInYear 400 1970 (t / 86400 % eraDays).toNat).1
  unfold gmtime at h
  rcases hy : blockOf daysInYear 400 1970 (s / 86400 % eraDays).toNat with ⟨year, yday⟩
  rcases hy' : blockOf daysInYear 400 1970 (t / 86400 % eraDays).toNat with ⟨year', yday'⟩
  rw [hy] at hs hs'
  rw [hy'] at ht ht'
  rcases hm : blockOf (daysInMonth year) 12 1 yday with ⟨mon, mday⟩
  rcases hm' : blockOf (daysInMonth year') 12 1 yday' with ⟨mon', mday'⟩
  simp only [hy, hy', hm, hm', Tm.mk.injEq] at h
  dsimp only at hs hs' ht ht'
  obtain ⟨hyear, rfl, hmday, hhour, hmin, hsec⟩ := h
  obtain rfl : mday = mday' := by omega
  -- an era has 400 years
  obtain ⟨rfl, hera⟩ : year = year' ∧ s / 86400 / eraDays = t / 86400 / eraDays := by omega
  obtain rfl : yday = yday' := blockOf_injective (hm.trans hm'.symm)
  have hday := blockOf_injective (hy.trans hy'.symm)
  unfold eraDays at hera hday
  omega

example : gmtime 951782400 = ⟨2000, 2, 29, 0, 0, 0⟩ := by decide

/-- The years up to 9999. -/
theorem gmtime_year_le {time : ℤ} (h0 : 0 ≤ time) (h : time < 253402300800) :
    1970 ≤ (gmtime time).year ∧ (gmtime time).year ≤ 9999 := by
  obtain ⟨hlt, -⟩ := gmtime_year time
  obtain ⟨hle, hsum⟩ := blockOf_sum daysInYear 400 1970 (time / 86400 % eraDays).toNat
  have hyear : (gmtime time).year =
      (blockOf daysInYear 400 1970 (time / 86400 % eraDays).toNat).1 + 400 * (time / 86400 / eraDays) :=
    rfl
  rw [hyear]
  generalize blockOf daysInYear 400 1970 (time / 86400 % eraDays).toNat = block at *
  have hera : 0 ≤ time / 86400 / eraDays ∧ time / 86400 / eraDays ≤ 20 := by
    unfold eraDays; omega
  -- in the last era, the days end with the year 1999 of the first era
  have hlast : 2000 ≤ block.1 → 10957 ≤ (time / 86400 % eraDays).toNat := by
    intro h2000
    have h30 : ∑ k ∈ Finset.Ico 1970 2000, daysInYear k = 10957 := by decide +kernel
    have hmono : ∑ k ∈ Finset.Ico 1970 2000, daysInYear k ≤
        ∑ k ∈ Finset.Ico 1970 block.1, daysInYear k :=
      Finset.sum_le_sum_of_subset (Finset.Ico_subset_Ico_right h2000)
    omega
  unfold eraDays at *
  omega

end Calendar

/-
  The names of the state files, from the collector to the scripts.

  The collector names a file after the end of its period with `strftime`; the scripts take
  the time from the name with `strptime`.

  * `stateTime_of_periodFileName`: they get the date and time of the end of the period.
  * `sameDirectory_iff`: the rotation archives two files together exactly if their periods
    end on the same day.
-/
import Honas.StateRotate

namespace Honas

open Calendar

/-! ## Dates -/

/-- Leap years repeat every 400 years. -/
theorem isLeap_add (year era : ℕ) : isLeap (year + 400 * era) = isLeap year := by
  have h4 : (year + 400 * era) % 4 = year % 4 := by omega
  have h100 : (year + 400 * era) % 100 = year % 100 := by omega
  have h400 : (year + 400 * era) % 400 = year % 400 := by omega
  rw [isLeap, isLeap, h4, h100, h400]

theorem daysInMonth_add (year era month : ℕ) :
    daysInMonth (year + 400 * era) month = daysInMonth year month := by
  unfold daysInMonth
  rw [isLeap_add]

/-- The day is one of the month. -/
theorem gmtime_mday_le {time : ℤ} (h0 : 0 ≤ time) :
    (gmtime time).mday ≤ daysInMonth (gmtime time).year.toNat (gmtime time).mon := by
  obtain ⟨-, hyday⟩ := gmtime_year time
  have hera : 0 ≤ time / 86400 / eraDays := by
    unfold eraDays
    omega
  unfold gmtime
  rcases hy : blockOf daysInYear 400 1970 (time / 86400 % eraDays).toNat with ⟨year, yday⟩
  rw [hy] at hyday
  rw [← sum_daysInMonth] at hyday
  obtain ⟨-, hmday⟩ := blockOf_lt (daysInMonth year) 12 1 yday hyday
  rcases hm : blockOf (daysInMonth year) 12 1 yday with ⟨mon, mday⟩
  rw [hm] at hmday
  simp only [hy, hm]
  obtain ⟨era, he⟩ := Int.eq_ofNat_of_zero_le hera
  have hyear : ((year : ℤ) + 400 * (time / 86400 / eraDays)).toNat = year + 400 * era := by
    rw [he]
    omega
  rw [hyear, daysInMonth_add]
  exact hmday

/-! ## Parsing what was printed -/

theorem digitValue_digitChar {d : ℕ} (h : d < 10) : digitValue (Nat.digitChar d) = some d := by
  revert d
  decide

theorem strptimeNumber_twoDigits {lo hi n : ℕ} (hlo : lo ≤ n) (hhi : n ≤ hi) (h : n < 100)
    (rest : List Char) : strptimeNumber lo hi (twoDigits n ++ rest) = some (n, rest) := by
  have htens : digitValue (Nat.digitChar (n / 10)) = some (n / 10) := digitValue_digitChar (by omega)
  have hones : digitValue (Nat.digitChar (n % 10)) = some (n % 10) := digitValue_digitChar (by omega)
  have hn : 10 * (n / 10) + n % 10 = n := Nat.div_add_mod n 10
  simp only [strptimeNumber, twoDigits, List.cons_append, List.nil_append, List.head?_cons,
    List.tail_cons, Option.map_some, Option.bind_eq_bind, Option.bind_some, htens, hones, hn]
  exact if_pos ⟨hlo, hhi⟩

theorem strptimeDay_twoDigits {n : ℕ} (hlo : 1 ≤ n) (hhi : n ≤ 31) (rest : List Char) :
    strptimeDay (twoDigits n ++ rest) = some (n, rest) := by
  have hne : ∀ d < 10, Nat.digitChar d ≠ ' ' := by decide
  have hnumber : strptimeDay (twoDigits n ++ rest) = strptimeNumber 1 31 (twoDigits n ++ rest) := by
    rw [twoDigits, List.cons_append, strptimeDay]
    rintro c s h
    exact hne _ (by omega) (List.cons.inj h).1
  rw [hnumber, strptimeNumber_twoDigits hlo hhi (by omega)]

theorem strptimeYear_repr {year : ℕ} (hlo : 1000 ≤ year) (hhi : year ≤ 9999) (rest : List Char) :
    strptimeYear ((Int.repr (year : ℤ)).toList ++ rest) = some (year, rest) := by
  have hdigits : (Int.repr (year : ℤ)).toList = [Nat.digitChar (year / 1000),
      Nat.digitChar (year / 100 % 10), Nat.digitChar (year / 10 % 10), Nat.digitChar (year % 10)] := by
    have hrepr : (Int.repr (year : ℤ)).toList = Nat.toDigits 10 year := Nat.toList_repr
    rw [hrepr, Nat.toDigits_of_base_le (by decide) (by omega),
      Nat.toDigits_of_base_le (by decide) (by omega),
      Nat.toDigits_of_base_le (by decide) (by omega), Nat.toDigits_of_lt_base (by omega)]
    simp only [Nat.div_div_eq_div_mul, List.cons_append, List.nil_append, Nat.reduceMul]
  have hvalue : ∀ n, digitValue (Nat.digitChar (n % 10)) = some (n % 10) :=
    fun n => digitValue_digitChar (by omega)
  have hfirst : digitValue (Nat.digitChar (year / 1000)) = some (year / 1000) :=
    digitValue_digitChar (by omega)
  have hsum : 1000 * (year / 1000) + 100 * (year / 100 % 10) + 10 * (year / 10 % 10) + year % 10 =
      year := by omega
  rw [hdigits]
  simp only [strptimeYear, List.cons_append, List.nil_append, hfirst, hvalue, Option.bind_eq_bind,
    Option.bind_some, hsum]

theorem strptimeLiteral_self {c : Char} (h : c.toUpper = c) (rest : List Char) :
    strptimeLiteral c (c :: rest) = some rest := if_pos h

theorem dot_notMem_twoDigits (n : ℕ) : '.' ∉ twoDigits n := by
  have hne : ∀ n, '.' ≠ Nat.digitChar n := by
    intro n
    by_cases h : n < 16
    · revert n
      decide
    · rw [digitChar_of_ge (by omega)]
      decide
  rw [twoDigits, List.mem_cons, List.mem_singleton, not_or]
  exact ⟨hne _, hne _⟩

theorem dot_notMem_repr (n : ℕ) : '.' ∉ (Int.repr (n : ℤ)).toList := by
  intro h
  have hrepr : (Int.repr (n : ℤ)).toList = Nat.toDigits 10 n := Nat.toList_repr
  rw [hrepr] at h
  exact absurd (Nat.isDigit_of_mem_toDigits (by decide) (by decide) h) (by decide)

/-- The suffix is removed. -/
theorem removeHs_append : ∀ {name : List Char}, '.' ∉ name → removeHs (name ++ ['.', 'h', 's']) = name
  | [], _ => rfl
  | c :: name, h => by
    rw [List.mem_cons, not_or] at h
    rw [List.cons_append, removeHs, removeHs_append h.2]
    rintro name' hname
    exact absurd hname.symm h.1

/-- **What `strftime` prints is parsed**, for a year of four digits. -/
theorem stateTime_strftimePeriod {tm : Tm} (hyear : 1000 ≤ tm.year ∧ tm.year ≤ 9999)
    (hmon : 1 ≤ tm.mon ∧ tm.mon ≤ 12)
    (hmday : 1 ≤ tm.mday ∧ tm.mday ≤ daysInMonth tm.year.toNat tm.mon) (hhour : tm.hour < 24)
    (hmin : tm.min < 60) (hsec : tm.sec < 60) : stateTime (strftimePeriod tm) = some tm := by
  obtain ⟨year, hy⟩ := Int.eq_ofNat_of_zero_le (show 0 ≤ tm.year by omega)
  have h31 := daysInMonth_le tm.year.toNat tm.mon
  have hnodot : '.' ∉ (Int.repr tm.year).toList ++ ['-'] ++ twoDigits tm.mon ++ ['-'] ++
      twoDigits tm.mday ++ ['T'] ++ twoDigits tm.hour ++ [':'] ++ twoDigits tm.min ++ [':'] ++
      twoDigits tm.sec := by
    have hrepr : '.' ∉ (Int.repr tm.year).toList := by
      rw [hy]
      exact dot_notMem_repr year
    simp only [List.mem_append, List.mem_singleton, not_or, dot_notMem_twoDigits, hrepr,
      not_false_eq_true, true_and]
    decide
  rw [stateTime, strftimePeriod, removeHs_append hnodot, hy, strptimePeriod]
  simp only [List.append_assoc, List.cons_append, List.nil_append]
  have hlast := strptimeNumber_twoDigits (Nat.zero_le tm.sec) (by omega : tm.sec ≤ 61) (by omega) []
  rw [List.append_nil] at hlast
  simp only [strptimeYear_repr (by omega : 1000 ≤ year) (by omega : year ≤ 9999),
    strptimeLiteral_self (show '-'.toUpper = '-' by decide),
    strptimeLiteral_self (show 'T'.toUpper = 'T' by decide),
    strptimeLiteral_self (show ':'.toUpper = ':' by decide),
    strptimeNumber_twoDigits hmon.1 hmon.2 (by omega), strptimeDay_twoDigits hmday.1 (by omega),
    strptimeNumber_twoDigits (Nat.zero_le tm.hour) (by omega : tm.hour ≤ 23) (by omega),
    strptimeNumber_twoDigits (Nat.zero_le tm.min) (by omega : tm.min ≤ 59) (by omega), hlast,
    Option.bind_eq_bind, Option.bind_some]
  have hmday' : tm.mday ≤ daysInMonth year tm.mon := by
    rw [hy] at hmday
    exact hmday.2
  rw [if_pos ⟨trivial, by omega, hmday', by omega⟩, ← hy]

/-- **The time is taken from the name.** -/
theorem stateTime_of_periodFileName {time : ℤ} (h0 : 0 ≤ time) (h : time < 253402300800)
    {name : List Char} (hname : periodFileName time = some name) :
    stateTime name = some (gmtime time) := by
  obtain ⟨hyear, hyear'⟩ := gmtime_year_le h0 h
  obtain ⟨hmon, ⟨hmday, -⟩, hhour, hmin, hsec⟩ := gmtime_ranges time
  unfold periodFileName at hname
  dsimp only at hname
  split_ifs at hname
  rw [← Option.some.inj hname]
  exact stateTime_strftimePeriod ⟨by omega, hyear'⟩ hmon ⟨hmday, gmtime_mday_le h0⟩ hhour hmin hsec

/-! ## Days -/

theorem toDigits_injective {m n : ℕ} (h : Nat.toDigits 10 m = Nat.toDigits 10 n) : m = n := by
  have hrepr : ∀ n : ℕ, (Int.repr (n : ℤ)).toList = Nat.toDigits 10 n := fun n => Nat.toList_repr
  rw [← hrepr, ← hrepr] at h
  exact Int.ofNat.inj (Int.repr_injective (String.toList_injective h))

/-- The directory determines the date. -/
theorem dayName_injective {a b : Tm} (hyear : 0 ≤ a.year ∧ 0 ≤ b.year)
    (hmon : a.mon < 100 ∧ b.mon < 100) (hmday : a.mday < 100 ∧ b.mday < 100)
    (h : dayName a = dayName b) : a.year = b.year ∧ a.mon = b.mon ∧ a.mday = b.mday := by
  simp only [dayName, List.append_assoc] at h
  obtain ⟨emday, h⟩ := List.append_inj h rfl
  obtain ⟨-, h⟩ := List.append_inj h rfl
  obtain ⟨emon, h⟩ := List.append_inj h rfl
  obtain ⟨-, h⟩ := List.append_inj h rfl
  have eyear := toDigits_injective h
  exact ⟨by omega, twoDigits_injective hmon.1 hmon.2 emon, twoDigits_injective hmday.1 hmday.2 emday⟩

/-- The date is that of the beginning of the day. -/
theorem gmtime_midnight (time : ℤ) : gmtime (86400 * (time / 86400)) =
    ⟨(gmtime time).year, (gmtime time).mon, (gmtime time).mday, 0, 0, 0⟩ := by
  have hdays : 86400 * (time / 86400) / 86400 = time / 86400 := by omega
  have hsecs : (86400 * (time / 86400) % 86400).toNat = 0 := by omega
  unfold gmtime
  rw [hdays, hsecs]

/-- **The rotation archives two files together** exactly if their periods end on the same
    day, UTC: from both names it gets the date and time of the end. -/
theorem sameDirectory_iff {s t : ℤ} (hs : 0 ≤ s ∧ s < 253402300800) (ht : 0 ≤ t ∧ t < 253402300800) :
    ∃ name name', periodFileName s = some name ∧ periodFileName t = some name' ∧
      stateTime name = some (gmtime s) ∧ stateTime name' = some (gmtime t) ∧
      (dayName (gmtime s) = dayName (gmtime t) ↔ s / 86400 = t / 86400) := by
  obtain ⟨name, hname⟩ := Option.isSome_iff_exists.1 (periodFileName_isSome hs.1 hs.2)
  obtain ⟨name', hname'⟩ := Option.isSome_iff_exists.1 (periodFileName_isSome ht.1 ht.2)
  refine ⟨name, name', hname, hname', stateTime_of_periodFileName hs.1 hs.2 hname,
    stateTime_of_periodFileName ht.1 ht.2 hname', fun h => ?_, fun h => ?_⟩
  · obtain ⟨hyear, -⟩ := gmtime_year_le hs.1 hs.2
    obtain ⟨hyear', -⟩ := gmtime_year_le ht.1 ht.2
    obtain ⟨hmon, hmday, -⟩ := gmtime_ranges s
    obtain ⟨hmon', hmday', -⟩ := gmtime_ranges t
    obtain ⟨eyear, emon, emday⟩ := dayName_injective (by omega) (by omega) (by omega) h
    have hmidnight : gmtime (86400 * (s / 86400)) = gmtime (86400 * (t / 86400)) := by
      rw [gmtime_midnight, gmtime_midnight, eyear, emon, emday]
    have := gmtime_injective hmidnight
    omega
  · have hdate : dayName (gmtime (86400 * (s / 86400))) = dayName (gmtime (86400 * (t / 86400))) := by
      rw [h]
    rwa [gmtime_midnight, gmtime_midnight] at hdate

/-- The last second of a leap day, and the next one. -/
theorem sameDirectory_leapDay : ∃ name name', periodFileName 951868799 = some name ∧
    periodFileName 951868800 = some name' ∧
    stateTime name = some ⟨2000, 2, 29, 23, 59, 59⟩ ∧ stateTime name' = some ⟨2000, 3, 1, 0, 0, 0⟩ ∧
    (dayName ⟨2000, 2, 29, 23, 59, 59⟩ = dayName ⟨2000, 3, 1, 0, 0, 0⟩ ↔
      (951868799 : ℤ) / 86400 = 951868800 / 86400) :=
  sameDirectory_iff (by decide) (by decide)

end Honas

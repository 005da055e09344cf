/-
  The daily aggregation (`scripts/honas_daily_state_combine.py`).

  For every directory that the rotation file lists, the script copies the first file to
  a destination named after the day, and then combines every file of the directory into
  it.  The first file is so combined with its own copy: this does not change the
  filters, but its requests are counted twice.

  * `dailyCombine_iff`: the requests are those of the files exactly if the first file
    has none, and the total fits in 64 bits.
-/
import Honas.Combine
import Honas.GatherRotate

namespace Honas

open Bits Calendar

/-! ## File names -/

/-- `str.replace(".hs", "")`. -/
def removeHs : List Char → List Char
  | '.' :: 'h' :: 's' :: name => removeHs name
  | c :: name => c :: removeHs name
  | [] => []

/-- The value of an ASCII digit. -/
def digitValue (c : Char) : Option ℕ := if c.isDigit then some (c.toNat - '0'.toNat) else none

/-- A directive of `strptime` for a number of one or two digits, in a range. -/
def strptimeNumber (lo hi : ℕ) (s : List Char) : Option (ℕ × List Char) := do
  let (c, s) ← s.head?.map fun c => (c, s.tail)
  let d ← digitValue c
  let (n, s) := match s with
    | c' :: s' =>
      match digitValue c' with
      | some d' => (10 * d + d', s')
      | none => (d, s)
    | [] => (d, s)
  if lo ≤ n ∧ n ≤ hi then some (n, s) else none

/-- `%d`, which may also be a blank and a digit. -/
def strptimeDay : List Char → Option (ℕ × List Char)
  | ' ' :: c :: s => (digitValue c).bind fun d => if 1 ≤ d then some (d, s) else none
  | s => strptimeNumber 1 31 s

/-- A literal of the format; the case of letters is ignored. -/
def strptimeLiteral (c : Char) : List Char → Option (List Char)
  | c' :: s => if c'.toUpper = c then some s else none
  | [] => none

/-- `%Y`. -/
def strptimeYear : List Char → Option (ℕ × List Char)
  | a :: b :: c :: d :: s => do
    some (1000 * (← digitValue a) + 100 * (← digitValue b) + 10 * (← digitValue c) + (← digitValue d), s)
  | _ => none

/-- `datetime.strptime` with the format `%Y-%m-%dT%H:%M:%S`; `none` stands for
    `ValueError`. -/
def strptimePeriod (s : List Char) : Option Tm := do
  let (year, s) ← strptimeYear s
  let s ← strptimeLiteral '-' s
  let (mon, s) ← strptimeNumber 1 12 s
  let s ← strptimeLiteral '-' s
  let (mday, s) ← strptimeDay s
  let s ← strptimeLiteral 'T' s
  let (hour, s) ← strptimeNumber 0 23 s
  let s ← strptimeLiteral ':' s
  let (min, s) ← strptimeNumber 0 59 s
  let s ← strptimeLiteral ':' s
  let (sec, s) ← strptimeNumber 0 61 s
  if s = [] ∧ 1 ≤ year ∧ mday ≤ daysInMonth year mon ∧ sec ≤ 59 then
    some ⟨year, mon, mday, hour, min, sec⟩
  else none

/-- The time in the name of a state file. -/
def stateTime (name : List Char) : Option Tm := strptimePeriod (removeHs name)

/-- `strftime` with the format `%Y-%m-%d`, and `.hs`; the years of `datetime` are positive. -/
def destinationName (tm : Tm) : List Char :=
  Nat.toDigits 10 tm.year.toNat ++ ['-'] ++ twoDigits tm.mon ++ ['-'] ++ twoDigits tm.mday ++
    ['.', 'h', 's']

/-! ## Combining the files of a directory -/

/-- The files of a directory. -/
abbrev Directory : Type := List Char → Option (List Byte)

/-- `honas-combine` in a directory, without a failing system call. -/
def honasCombine (estimate : ℚ → ℕ → BitVec 64) (dst : List Char) (files : Directory)
    (src : List Char) : Directory :=
  match combinedState (files dst) (files src) with
  | none => files
  | some state =>
    match honasStatePersist estimate state with
    | none => Function.update files dst none
    | some (_, file) => Function.update files dst (some file)

/-- One directory, in the order in which its files are listed: the destination and the
    files afterwards; `none` if the directory is skipped. -/
def mergeDirectory (estimate : ℚ → ℕ → BitVec 64) (listing : List (List Char))
    (files : Directory) : Option (List Char × Directory) := do
  let first ← listing.head?
  let time ← stateTime first
  let destinationFile := destinationName time
  let files := Function.update files destinationFile (files first)
  some (destinationFile, listing.foldl (honasCombine estimate destinationFile) files)

/-! ## The destination is a new name -/

theorem mem_removeHs {c : Char} : ∀ {name : List Char}, c ∈ removeHs name → c ∈ name := by
  intro name
  fun_induction removeHs name with
  | case1 name ih => exact fun h => by simp [ih h]
  | case2 c' name _ ih =>
    intro h
    rcases List.mem_cons.1 h with rfl | h
    · exact List.mem_cons_self ..
    · exact List.mem_cons_of_mem _ (ih h)
  | case3 => exact id

theorem strptimeYear_suffix {s rest : List Char} {n : ℕ} (h : strptimeYear s = some (n, rest)) :
    rest <:+ s := by
  match s, h with
  | a :: b :: c :: d :: s, h =>
    simp only [strptimeYear, Option.bind_eq_bind, Option.bind_eq_some_iff, Option.some_inj,
      Prod.mk.injEq] at h
    obtain ⟨-, -, -, -, -, -, -, -, -, rfl⟩ := h
    exact ⟨[a, b, c, d], rfl⟩

theorem strptimeLiteral_eq {c : Char} {s rest : List Char} (h : strptimeLiteral c s = some rest) :
    ∃ c', c'.toUpper = c ∧ s = c' :: rest := by
  cases s with
  | nil => cases h
  | cons c' s =>
    rw [strptimeLiteral] at h
    split_ifs at h with hc
    obtain rfl := Option.some.inj h
    exact ⟨c', hc, rfl⟩

theorem strptimeNumber_suffix {lo hi n : ℕ} {s rest : List Char}
    (h : strptimeNumber lo hi s = some (n, rest)) : rest <:+ s := by
  cases s with
  | nil => cases h
  | cons c s =>
    simp only [strptimeNumber, List.head?_cons, Option.map_some, List.tail_cons, Option.bind_eq_bind,
      Option.bind_some] at h
    obtain ⟨d, -, h⟩ := Option.bind_eq_some_iff.1 h
    split_ifs at h
    obtain ⟨-, rfl⟩ := Prod.mk.inj (Option.some.inj h)
    cases s with
    | nil => exact List.suffix_cons ..
    | cons c' s =>
      dsimp only
      cases digitValue c' with
      | none => exact List.suffix_cons ..
      | some d' => exact ⟨[c, c'], rfl⟩

theorem strptimeDay_suffix {n : ℕ} {s rest : List Char} (h : strptimeDay s = some (n, rest)) :
    rest <:+ s := by
  revert h
  fun_cases strptimeDay s <;> intro h
  · obtain ⟨d, -, h⟩ := Option.bind_eq_some_iff.1 h
    split_ifs at h
    obtain ⟨-, rfl⟩ := Prod.mk.inj (Option.some.inj h)
    exact ⟨[' ', _], rfl⟩
  · exact strptimeNumber_suffix h

/-- The name of a state file has a `T`. -/
theorem stateTime_mem {name : List Char} {tm : Tm} (h : stateTime name = some tm) :
    ∃ c ∈ name, c.toUpper = 'T' := by
  rw [stateTime, strptimePeriod] at h
  obtain ⟨⟨year, s₁⟩, hyear, h⟩ := Option.bind_eq_some_iff.1 h
  obtain ⟨s₂, hdash, h⟩ := Option.bind_eq_some_iff.1 h
  obtain ⟨⟨mon, s₃⟩, hmon, h⟩ := Option.bind_eq_some_iff.1 h
  obtain ⟨s₄, hdash', h⟩ := Option.bind_eq_some_iff.1 h
  obtain ⟨⟨mday, s₅⟩, hmday, h⟩ := Option.bind_eq_some_iff.1 h
  obtain ⟨s₆, ht, -⟩ := Option.bind_eq_some_iff.1 h
  obtain ⟨c₁, -, rfl⟩ := strptimeLiteral_eq hdash
  obtain ⟨c₂, -, rfl⟩ := strptimeLiteral_eq hdash'
  obtain ⟨c, hc, rfl⟩ := strptimeLiteral_eq ht
  have hsuffix : c :: s₆ <:+ removeHs name :=
    (strptimeDay_suffix hmday).trans <| (List.suffix_cons ..).trans <|
      (strptimeNumber_suffix hmon).trans <| (List.suffix_cons ..).trans (strptimeYear_suffix hyear)
  exact ⟨c, mem_removeHs (hsuffix.subset (List.mem_cons_self ..)), hc⟩

theorem toUpper_digit {c : Char} (h : c.isDigit) : c.toUpper ≠ 'T' := by
  intro hc
  rw [Char.toUpper] at hc
  simp only [Char.isDigit, ge_iff_le, Bool.and_eq_true, decide_eq_true_eq] at h
  split_ifs at hc with hlower
  · have hle := UInt32.le_trans hlower.1 h.2
    revert hle
    decide
  · subst hc
    revert h
    decide

theorem digitChar_of_ge {n : ℕ} (h : 16 ≤ n) : Nat.digitChar n = '*' := by
  unfold Nat.digitChar
  iterate 16 rw [if_neg (by omega)]

theorem toUpper_digitChar (n : ℕ) : (Nat.digitChar n).toUpper ≠ 'T' := by
  by_cases h : n < 16
  · revert n
    decide
  · rw [digitChar_of_ge (by omega)]
    decide

/-- The name of the destination has none. -/
theorem destinationName_toUpper {tm : Tm} {c : Char} (h : c ∈ destinationName tm) :
    c.toUpper ≠ 'T' := by
  simp only [destinationName, twoDigits, List.mem_append, List.mem_cons, List.not_mem_nil,
    or_false] at h
  rcases h with ((((h | rfl) | rfl | rfl) | rfl) | rfl | rfl) | rfl | rfl | rfl
  · exact toUpper_digit (Nat.isDigit_of_mem_toDigits (by decide) (by decide) h)
  all_goals first | exact toUpper_digitChar _ | decide

/-- The destination is none of the files that are combined. -/
theorem destinationName_ne {name : List Char} {tm tm' : Tm} (h : stateTime name = some tm) :
    name ≠ destinationName tm' := by
  rintro rfl
  obtain ⟨c, hmem, hc⟩ := stateTime_mem h
  exact destinationName_toUpper hmem hc

/-! ## The files of a day -/

/-- The requests of a file. -/
def requestsOf (file : Option (List Byte)) : ℕ := headerGet (file.getD []) .numberOfRequests

/-- The file of a name is a state file that can be combined with those for `p`. -/
def CombinableFile (p : StateParams) (file : Option (List Byte)) : Prop :=
  ∃ (q : StateParams) (m : List Byte), q.Ok ∧ Compatible p q ∧ file = some m ∧ StateFile q m

/-- A position of a filter is among those that are merged. -/
theorem filterPos_mem_mergedBits {p : StateParams} {f b : ℕ} (hf : f < p.n) (hb : b < 8 * p.len) :
    p.filterPos f b ∈ p.mergedBits := by
  refine .inl ⟨f, hf, ?_⟩
  simp only [Region.bits, StateParams.filterPos, StateParams.filterRegion, Set.mem_ofPred_eq]
  omega

section

variable (estimate : ℚ → ℕ → BitVec 64) {p : StateParams} {dst : List Char} {files : Directory}

/-- Combining one file. -/
theorem honasCombine_spec (hp : p.Ok) {m : List Byte} (hdst : files dst = some m)
    (hm : StateFile p m) {src : List Char} (hsrc : CombinableFile p (files src)) :
    ∃ file, honasCombine estimate dst files src = Function.update files dst (some file) ∧
      StateFile p file ∧
      headerGet file .numberOfRequests =
        (headerGet m .numberOfRequests + requestsOf (files src)) % 2 ^ 64 ∧
      ∀ f < p.n, ∀ b < 8 * p.len, (bitAt file (p.filterPos f b) = true ↔
        bitAt m (p.filterPos f b) = true ∨
          bitAt ((files src).getD []) (p.filterPos f b) = true) := by
  obtain ⟨q, n, hq, hpq, hn, hfile⟩ := hsrc
  obtain ⟨state, state', file, hstate, hpersist, hcombined, hreq, hbits⟩ :=
    hm.combine estimate hp hq hpq hfile
  refine ⟨file, ?_, hcombined, by rw [hreq, hn, requestsOf, Option.getD_some], fun f hf b hb => ?_⟩
  · rw [honasCombine, hdst, hn, hstate]
    simp only [hpersist]
  · rw [hbits _ (p.first_le_filterPos f b), hn, Option.getD_some,
      and_iff_right (filterPos_mem_mergedBits hf hb)]

/-- It is what a run of `honas-combine` without a failing system call does. -/
theorem honasCombine_run {src : List Char} {state state' : HonasState} {file : List Byte}
    (hstate : combinedState (files dst) (files src) = some state)
    (hpersist : honasStatePersist estimate state = some (state', file)) (hpos : 0 < file.length) :
    (callsUntilUnlink ++ callsAfterUnlink file.length).foldlM (combineStep estimate dst src)
      ⟨.loadDst, files⟩ = some ⟨.exited, honasCombine estimate dst files src⟩ := by
  obtain ⟨hunlink, hlink⟩ := combine_runs dst src files hstate hpersist hpos
  rw [List.foldlM_append, hunlink, honasCombine, hstate]
  simp only [hpersist]
  exact hlink

/-- **Combining the files of a list**, none of which is the destination. -/
theorem foldl_honasCombine (hp : p.Ok) : ∀ {names : List (List Char)} {files : Directory}
    {m : List Byte}, files dst = some m → StateFile p m →
    (∀ name ∈ names, name ≠ dst ∧ CombinableFile p (files name)) →
    ∃ file, names.foldl (honasCombine estimate dst) files dst = some file ∧
      headerGet file .numberOfRequests = (headerGet m .numberOfRequests +
        (names.map fun name => requestsOf (files name)).sum) % 2 ^ 64 ∧
      ∀ f < p.n, ∀ b < 8 * p.len, (bitAt file (p.filterPos f b) = true ↔
        bitAt m (p.filterPos f b) = true ∨
          ∃ name ∈ names, bitAt ((files name).getD []) (p.filterPos f b) = true)
  | [], files, m, hdst, hm, _ => by
    have hlt : headerGet m .numberOfRequests < 2 ^ 64 :=
      headerGet_lt (by rw [hm.length]; exact p.sizeofHeader_le) .numberOfRequests
    exact ⟨m, hdst, by simpa using (Nat.mod_eq_of_lt hlt).symm, by simp⟩
  | name :: names, files, m, hdst, hm, hnames => by
    rw [List.forall_mem_cons] at hnames
    obtain ⟨file, he, hfile, hreq, hbits⟩ :=
      honasCombine_spec estimate hp hdst hm hnames.1.2
    -- the other files stay
    have hstay : ∀ name' ∈ names, Function.update files dst (some file) name' = files name' :=
      fun name' hmem => Function.update_of_ne (hnames.2 name' hmem).1 _ _
    have hself : Function.update files dst (some file) dst = some file := Function.update_self ..
    have hrest : ∀ name' ∈ names, name' ≠ dst ∧
        CombinableFile p (Function.update files dst (some file) name') := by
      intro name' hmem
      rw [hstay name' hmem]
      exact hnames.2 name' hmem
    obtain ⟨file', he', hreq', hbits'⟩ := foldl_honasCombine hp hself hfile hrest
    refine ⟨file', by rw [List.foldl_cons, he, he'], ?_, fun f hf b hb => ?_⟩
    · rw [hreq', hreq, List.map_congr_left fun name' hmem => by rw [hstay name' hmem],
        List.map_cons, List.sum_cons, Nat.mod_add_mod, Nat.add_assoc]
    · rw [hbits' f hf b hb, hbits f hf b hb, or_assoc]
      refine or_congr_right ?_
      rw [List.exists_mem_cons_iff]
      refine or_congr_right (exists_congr fun name' => and_congr_right fun hmem => ?_)
      rw [hstay name' hmem]

/-- **One directory**: the first file counts twice. -/
theorem mergeDirectory_spec {first : List Char}
    {rest : List (List Char)} (hnames : ∀ name ∈ first :: rest, (stateTime name).isSome)
    (hfiles : ∀ name ∈ first :: rest, CombinableFile p (files name)) :
    ∃ dst merged file, mergeDirectory estimate (first :: rest) files = some (dst, merged) ∧
      merged dst = some file ∧
      headerGet file .numberOfRequests = (requestsOf (files first) +
        ((first :: rest).map fun name => requestsOf (files name)).sum) % 2 ^ 64 ∧
      ∀ f < p.n, ∀ b < 8 * p.len, (bitAt file (p.filterPos f b) = true ↔
        ∃ name ∈ first :: rest, bitAt ((files name).getD []) (p.filterPos f b) = true) := by
  obtain ⟨time, htime⟩ := Option.isSome_iff_exists.1 (hnames first (List.mem_cons_self ..))
  obtain ⟨q, m, hq, hpq, hm, hfile⟩ := hfiles first (List.mem_cons_self ..)
  have hne : ∀ name ∈ first :: rest, name ≠ destinationName time := by
    intro name hmem
    obtain ⟨time', htime'⟩ := Option.isSome_iff_exists.1 (hnames name hmem)
    exact destinationName_ne htime'
  have hstay : ∀ name ∈ first :: rest,
      Function.update files (destinationName time) (files first) name = files name :=
    fun name hmem => Function.update_of_ne (hne name hmem) _ _
  have hself : Function.update files (destinationName time) (files first) (destinationName time) =
      some m := (Function.update_self ..).trans hm
  have hall : ∀ name ∈ first :: rest, name ≠ destinationName time ∧
      CombinableFile q (Function.update files (destinationName time) (files first) name) := by
    intro name hmem
    obtain ⟨q', m', hq', hpq', hm', hfile'⟩ := hfiles name hmem
    exact ⟨hne name hmem, q', m', hq', hpq.symm.trans hpq', (hstay name hmem).trans hm', hfile'⟩
  obtain ⟨file, he, hreq, hbits⟩ := foldl_honasCombine estimate hq hself hfile hall
  refine ⟨_, _, file, ?_, he, ?_, fun f hf b hb => ?_⟩
  · rw [mergeDirectory, List.head?_cons]
    simp only [Option.bind_eq_bind, Option.bind_some, htime]
  · rw [hreq, List.map_congr_left fun name hmem => by rw [hstay name hmem], requestsOf, hm,
      Option.getD_some]
  · rw [hpq.filterPos, hbits f (hpq.filters ▸ hf) b (hpq.len ▸ hb)]
    constructor
    · rintro (hbit | ⟨name, hmem, hbit⟩)
      · exact ⟨first, List.mem_cons_self .., by rw [hm]; exact hbit⟩
      · exact ⟨name, hmem, by rwa [hstay name hmem] at hbit⟩
    · rintro ⟨name, hmem, hbit⟩
      exact .inr ⟨name, hmem, by rwa [hstay name hmem]⟩

end

end Honas

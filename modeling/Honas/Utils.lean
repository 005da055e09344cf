/-
  Numbers in texts (`src/utils.c`).

  `strtol` and `strtoul` scan a text and report an overflow through `errno`; the
  functions of the program also refuse a text that is not read to the end, and
  a number that is too large for their type.  `strtoul` negates the converted
  value after a minus sign, before that comparison.

  `myStrtouint_law_iff`: a text is read as its mathematical value, or refused,
  exactly if no negative numeral wraps into the range of the type.
-/
import Honas.Lib.Numeral

namespace Honas

open Numeral

/-! ## The functions of the library -/

/-- `isspace`, in the C locale. -/
def isCSpace (c : Char) : Bool := c = ' ' ∨ (9 ≤ c.toNat ∧ c.toNat ≤ 13)

/-- What `strtoul` stores: the value, the rest of the string behind the number, and
    whether it sets `errno`. -/
structure Strtoul where
  value : ℕ
  endptr : List Char
  errno : Bool

/-- `strtoul` in base 10, for an `unsigned long` of 64 bits.  Without digits the rest
    is the whole string. -/
def strtoul (str : List Char) : Strtoul :=
  let s := str.dropWhile isCSpace
  let negative := s.head? = some '-'
  let s := if s.head? = some '-' ∨ s.head? = some '+' then s.tail else s
  let digits := s.takeWhile Char.isDigit
  let v := Nat.ofDigitChars 10 digits 0
  if digits = [] then ⟨0, str, false⟩
  else if 2 ^ 64 ≤ v then ⟨2 ^ 64 - 1, s.dropWhile Char.isDigit, true⟩
  else ⟨if negative then (2 ^ 64 - v) % 2 ^ 64 else v, s.dropWhile Char.isDigit, false⟩

/-- What `strtol` stores. -/
structure Strtol where
  value : ℤ
  endptr : List Char
  errno : Bool

/-- `strtol` in base 10, for a `long` of 64 bits. -/
def strtol (str : List Char) : Strtol :=
  let s := str.dropWhile isCSpace
  let negative := s.head? = some '-'
  let s := if s.head? = some '-' ∨ s.head? = some '+' then s.tail else s
  let digits := s.takeWhile Char.isDigit
  let v := Nat.ofDigitChars 10 digits 0
  if digits = [] then ⟨0, str, false⟩
  else if negative ∧ 2 ^ 63 < v then ⟨-2 ^ 63, s.dropWhile Char.isDigit, true⟩
  else if ¬ negative ∧ 2 ^ 63 ≤ v then ⟨2 ^ 63 - 1, s.dropWhile Char.isDigit, true⟩
  else ⟨if negative then -v else v, s.dropWhile Char.isDigit, false⟩

/-! ## The functions of the program -/

/-- What `my_strtouint16`, `my_strtouint32` and `my_strtouint64` leave: whether a number
    has been parsed, the target, and the end pointer if there is one. -/
structure MyStrtouint (w : ℕ) where
  parsed : Bool
  val : BitVec w
  endptr : Option (List Char)

/-- The common body of `my_strtouint16`, `my_strtouint32` and `my_strtouint64` in base
    10, with the target before and whether the caller supplies an end pointer. -/
def myStrtouint (w : ℕ) (str : List Char) (val : BitVec w) (supplied : Bool) : MyStrtouint w :=
  let v := strtoul str
  let endptr := if supplied then some v.endptr else none
  if v.errno then ⟨false, val, endptr⟩
  else if str = v.endptr then ⟨false, val, endptr⟩
  else if v.value > 2 ^ w - 1 then ⟨false, val, endptr⟩
  else if ¬ supplied ∧ v.endptr ≠ [] then ⟨false, val, endptr⟩
  else ⟨true, BitVec.ofNat w v.value, endptr⟩

/-- `my_strtouint16`. -/
def myStrtouint16 := myStrtouint 16

/-- `my_strtouint32`, with its target. -/
def myStrtouint32Val := myStrtouint 32

/-- The same without an end pointer, where the target is only looked at if it is set. -/
def myStrtouint32 (str : List Char) : Option (BitVec 32) :=
  let r := myStrtouint32Val str 0 false
  if r.parsed then some r.val else none

/-- `my_strtouint64`. -/
def myStrtouint64 := myStrtouint 64

/-- `my_strtol`: the result and the number, which stays as it is after an error. -/
def myStrtol (str : List Char) (val : BitVec 32) : ℤ × BitVec 32 :=
  let v := strtol str
  if v.errno then (-1, val)
  else if str = v.endptr then (-1, val)
  else if v.endptr ≠ [] then (-1, val)
  else (0, BitVec.ofInt 32 v.value)

/-! ## Scanning -/

theorem isCSpace_spaces : Spaces isCSpace where
  digit c hc := by
    rw [Char.isDigit] at hc
    simp only [Bool.and_eq_true, decide_eq_true_eq] at hc
    have h48 : 48 ≤ c.toNat := hc.1
    have hsp : c ≠ ' ' := fun h => by
      rw [h] at h48
      exact absurd h48 (by decide)
    rw [isCSpace, decide_eq_false]
    rintro (h | h)
    · exact hsp h
    · omega
  plus := by decide
  minus := by decide

variable {str : List Char}

theorem strtoul_eq (str : List Char) : strtoul str =
    if digits isCSpace str = [] then ⟨0, str, false⟩
    else if 2 ^ 64 ≤ magnitude isCSpace str then ⟨2 ^ 64 - 1, rest isCSpace str, true⟩
    else ⟨if Negative isCSpace str then (2 ^ 64 - magnitude isCSpace str) % 2 ^ 64
        else magnitude isCSpace str, rest isCSpace str, false⟩ := rfl

theorem strtol_eq (str : List Char) : strtol str =
    if digits isCSpace str = [] then ⟨0, str, false⟩
    else if Negative isCSpace str ∧ 2 ^ 63 < magnitude isCSpace str then
      ⟨-2 ^ 63, rest isCSpace str, true⟩
    else if ¬ Negative isCSpace str ∧ 2 ^ 63 ≤ magnitude isCSpace str then
      ⟨2 ^ 63 - 1, rest isCSpace str, true⟩
    else ⟨value isCSpace str, rest isCSpace str, false⟩ := rfl

/-- The end pointer is at the start exactly if there is no digit. -/
theorem ne_rest (h : digits isCSpace str ≠ []) : str ≠ rest isCSpace str := by
  intro he
  have := length_rest_lt h
  rw [← he] at this
  exact lt_irrefl _ this

/-- The converted value, before the comparison with the range of the type. -/
def converted (str : List Char) : ℕ :=
  if Negative isCSpace str then (2 ^ 64 - magnitude isCSpace str) % 2 ^ 64
  else magnitude isCSpace str

/-- What a call without an end pointer accepts. -/
theorem myStrtouint_eq (w : ℕ) (str : List Char) (val : BitVec w) : myStrtouint w str val false =
    if (digits isCSpace str ≠ [] ∧ rest isCSpace str = []) ∧ magnitude isCSpace str < 2 ^ 64 ∧
        converted str < 2 ^ w
    then ⟨true, BitVec.ofNat w (converted str), none⟩ else ⟨false, val, none⟩ := by
  have hw : 0 < 2 ^ w := Nat.two_pow_pos w
  simp only [myStrtouint, Bool.false_eq_true, if_false, not_false_iff, true_and]
  rw [strtoul_eq]
  by_cases hd : digits isCSpace str = []
  · simp [hd]
  by_cases hmax : 2 ^ 64 ≤ magnitude isCSpace str
  · rw [if_neg hd, if_pos hmax, if_pos rfl, if_neg (fun h => absurd h.2.1 (not_lt.2 hmax))]
  rw [if_neg hd, if_neg hmax, ← converted]
  dsimp only
  rw [if_neg Bool.false_ne_true, if_neg (ne_rest hd)]
  by_cases hbig : converted str > 2 ^ w - 1
  · rw [if_pos hbig, if_neg (fun h => absurd h.2.2 (by omega))]
  by_cases hrest : rest isCSpace str = []
  · rw [if_neg hbig, if_neg (not_not.2 hrest), if_pos ⟨⟨hd, hrest⟩, by omega, by omega⟩]
  · rw [if_neg hbig, if_pos hrest, if_neg (fun h => hrest h.1.2)]

/-- A numeral in the range of a `long`. -/
def ReadsLong (str : List Char) (v : ℤ) : Prop := IsNumeral isCSpace str v ∧ -2 ^ 63 ≤ v ∧ v < 2 ^ 63

/-- `my_strtol` converts a numeral in the range of a `long` to an `int`. -/
theorem myStrtol_of_readsLong {v : ℤ} (h : ReadsLong str v) (val : BitVec 32) :
    myStrtol str val = (0, BitVec.ofInt 32 v) := by
  obtain ⟨hnum, hmin, hmax⟩ := h
  obtain ⟨⟨hd, hrest⟩, hv⟩ := (isNumeral_iff isCSpace_spaces).1 hnum
  have hvalue := hv
  rw [value] at hvalue
  have hlow : ¬ (Negative isCSpace str ∧ 2 ^ 63 < magnitude isCSpace str) := by
    rintro ⟨hneg, hm⟩
    rw [if_pos hneg] at hvalue
    omega
  have hhigh : ¬ (¬ Negative isCSpace str ∧ 2 ^ 63 ≤ magnitude isCSpace str) := by
    rintro ⟨hneg, hm⟩
    rw [if_neg hneg] at hvalue
    omega
  unfold myStrtol
  rw [strtol_eq, if_neg hd, if_neg hlow, if_neg hhigh]
  dsimp only
  rw [if_neg Bool.false_ne_true, if_neg (ne_rest hd), if_neg (not_not.2 hrest), hv]

/-- `my_strtol` refuses every other text. -/
theorem myStrtol_of_not_readsLong (h : ¬ ∃ v, ReadsLong str v) (val : BitVec 32) :
    myStrtol str val = (-1, val) := by
  unfold myStrtol
  rw [strtol_eq]
  by_cases hd : digits isCSpace str = []
  · simp [hd]
  rw [if_neg hd]
  by_cases hlow : Negative isCSpace str ∧ 2 ^ 63 < magnitude isCSpace str
  · rw [if_pos hlow, if_pos rfl]
  by_cases hhigh : ¬ Negative isCSpace str ∧ 2 ^ 63 ≤ magnitude isCSpace str
  · rw [if_neg hlow, if_pos hhigh, if_pos rfl]
  rw [if_neg hlow, if_neg hhigh]
  dsimp only
  rw [if_neg Bool.false_ne_true, if_neg (ne_rest hd), if_pos]
  intro hrest
  refine h ⟨_, isNumeral_of_scan hd hrest, ?_⟩
  rw [value]
  split_ifs with hneg
  · have : ¬ 2 ^ 63 < magnitude isCSpace str := fun hm => hlow ⟨hneg, hm⟩
    omega
  · have : ¬ 2 ^ 63 ≤ magnitude isCSpace str := fun hm => hhigh ⟨hneg, hm⟩
    omega

/-! ## The numbers that are stored -/

/-- A call without an end pointer stores exactly the value of a numeral in the range
    of the type, and refuses every other text. -/
def StoresValue {w : ℕ} (f : List Char → BitVec w → Bool → MyStrtouint w) (str : List Char) : Prop :=
  ∀ val, (∃ v : ℕ, IsNumeral isCSpace str v ∧ v < 2 ^ w ∧
      f str val false = ⟨true, BitVec.ofNat w v, none⟩) ∨
    (¬ ∃ v : ℕ, IsNumeral isCSpace str v ∧ v < 2 ^ w) ∧ f str val false = ⟨false, val, none⟩

/-- A negative numeral whose negation in 64 bits is in the range of the type. -/
def WrapsInto (w : ℕ) (str : List Char) : Prop :=
  ∃ m : ℕ, IsNumeral isCSpace str (-(m : ℤ)) ∧ 0 < m ∧ m < 2 ^ 64 ∧ 2 ^ 64 - m < 2 ^ w

theorem storesValue_iff (w : ℕ) (hw : w ≤ 64) (str : List Char) :
    StoresValue (myStrtouint w) str ↔ ¬ WrapsInto w str := by
  have hpow : 2 ^ w ≤ 2 ^ 64 := Nat.pow_le_pow_right (by norm_num) hw
  have hpos : 0 < 2 ^ w := Nat.two_pow_pos w
  have hnum := fun v : ℤ => @isNumeral_iff _ str isCSpace_spaces v
  unfold StoresValue WrapsInto
  simp only [hnum, myStrtouint_eq]
  by_cases hscan : digits isCSpace str ≠ [] ∧ rest isCSpace str = []
  swap
  · -- not a numeral
    simp [hscan]
  simp only [hscan, not_false_iff, true_and, and_self, ne_eq]
  by_cases hneg : Negative isCSpace str
  · rw [value, converted, if_pos hneg, if_pos hneg]
    generalize magnitude isCSpace str = m
    obtain rfl | hm := Nat.eq_zero_or_pos m
    · -- minus zero is in range
      refine iff_of_true (fun val => Or.inl ⟨0, rfl, hpos, ?_⟩) ?_
      · rw [Nat.sub_zero, Nat.mod_self, if_pos ⟨by norm_num, hpos⟩]
      · rintro ⟨m, he, hm, -⟩
        omega
    have hout : ¬ ∃ v : ℕ, (v : ℤ) = -(m : ℤ) ∧ v < 2 ^ w := by
      rintro ⟨v, he, -⟩
      omega
    by_cases hwrap : m < 2 ^ 64 ∧ 2 ^ 64 - m < 2 ^ w
    · -- accepted, although out of range
      refine iff_of_false (fun h => ?_) (not_not.2 ⟨m, rfl, hm, hwrap⟩)
      have hmod : (2 ^ 64 - m) % 2 ^ 64 = 2 ^ 64 - m := Nat.mod_eq_of_lt (by omega)
      obtain ⟨v, he, hv, -⟩ | ⟨-, hf⟩ := h 0
      · exact hout ⟨v, he, hv⟩
      · rw [hmod, if_pos hwrap] at hf
        cases hf
    · refine iff_of_true (fun val => Or.inr ⟨hout, if_neg ?_⟩) ?_
      · rintro ⟨hlt, hmod⟩
        rw [Nat.mod_eq_of_lt (by omega)] at hmod
        exact hwrap ⟨hlt, hmod⟩
      · rintro ⟨m', he, -, hlt⟩
        obtain rfl : m' = m := by omega
        exact hwrap hlt
  · rw [value, converted, if_neg hneg, if_neg hneg]
    generalize magnitude isCSpace str = m
    refine iff_of_true (fun val => ?_) ?_
    · by_cases hm : m < 2 ^ w
      · exact Or.inl ⟨m, rfl, hm, if_pos ⟨hm.trans_le hpow, hm⟩⟩
      · refine Or.inr ⟨?_, if_neg fun h => hm h.2⟩
        rintro ⟨v, he, hv⟩
        omega
    · rintro ⟨m', he, hm', -⟩
      omega

/-- **Numbers of every width** are read as their values, exactly if they do not wrap. -/
theorem myStrtouint_law_iff (str : List Char) :
    (StoresValue myStrtouint16 str ↔ ¬ WrapsInto 16 str) ∧
      (StoresValue myStrtouint32Val str ↔ ¬ WrapsInto 32 str) ∧
      (StoresValue myStrtouint64 str ↔ ¬ WrapsInto 64 str) :=
  ⟨storesValue_iff 16 (by norm_num) str, storesValue_iff 32 (by norm_num) str,
    storesValue_iff 64 le_rfl str⟩

/-- `-18446744073709551615` is read as 1 in every width. -/
theorem not_myStrtouint_storesValue :
    ¬ StoresValue myStrtouint16 "-18446744073709551615".toList ∧
      ¬ StoresValue myStrtouint32Val "-18446744073709551615".toList ∧
      ¬ StoresValue myStrtouint64 "-18446744073709551615".toList := by
  have hnum : IsNumeral isCSpace "-18446744073709551615".toList (-(18446744073709551615 : ℕ)) :=
    @IsNumeral.minus isCSpace [] "18446744073709551615".toList (by simp) (by simp)
      (by simp [Char.isDigit])
  have hwraps : ∀ w, 1 ≤ w → WrapsInto w "-18446744073709551615".toList := by
    intro w hw
    have hpow : 2 ^ 1 ≤ 2 ^ w := Nat.pow_le_pow_right (by norm_num) hw
    exact ⟨18446744073709551615, hnum, by norm_num, by norm_num, by omega⟩
  exact ⟨fun h => (storesValue_iff 16 (by norm_num) _).1 h (hwraps 16 (by norm_num)),
    fun h => (storesValue_iff 32 (by norm_num) _).1 h (hwraps 32 (by norm_num)),
    fun h => (storesValue_iff 64 le_rfl _).1 h (hwraps 64 (by norm_num))⟩

end Honas

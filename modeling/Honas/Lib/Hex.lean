/-
  Hexadecimal digits of either case, and strings of them.
-/
import Honas.Lib.Bits

open Bits

/-- `c` is a hexadecimal digit of either case, with the value `n`. -/
def HexDigit (c : Byte) (n : ℕ) : Prop :=
  (n < 10 ∧ c.toNat = 0x30 + n) ∨
    (10 ≤ n ∧ n < 16 ∧ (c.toNat = 0x41 + (n - 10) ∨ c.toNat = 0x61 + (n - 10)))

/-- A string of digits encodes some bytes, two digits each. -/
inductive HexEncodes : List Byte → List Byte → Prop where
  | nil : HexEncodes [] []
  | cons {c c' : Byte} {high low : ℕ} {str bytes : List Byte} (hhigh : HexDigit c high)
    (hlow : HexDigit c' low) (h : HexEncodes str bytes) :
    HexEncodes (c :: c' :: str) (BitVec.ofNat 8 (16 * high + low) :: bytes)

theorem HexDigit.lt {c : Byte} {n : ℕ} (h : HexDigit c n) : n < 16 := by
  rcases h with h | h <;> omega

/-- A digit has one value. -/
theorem HexDigit.unique {c : Byte} {n m : ℕ} (h : HexDigit c n) (h' : HexDigit c m) : n = m := by
  rcases h with h | h <;> rcases h' with h' | h' <;> omega

theorem HexEncodes.length {str bytes : List Byte} (h : HexEncodes str bytes) :
    str.length = 2 * bytes.length := by
  induction h with
  | nil => rfl
  | cons _ _ _ ih =>
    simp only [List.length_cons, ih]
    omega

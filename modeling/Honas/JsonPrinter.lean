/-
  The calls of the JSON printer (`include/json_printer.h`).

  What a program prints is the sequence of its calls.  `Readable` says of a
  function that writes calls that its argument can be read back from them,
  whatever is printed next; sequences of such calls are readable too.
-/
import Honas.Lib.Json

namespace Honas

open Bits

/-- The functions of the printer, between `json_printer_begin` and
    `json_printer_end`. -/
inductive JsonPrinterCall where
  | uint32 (val : ℕ)
  | uint64 (val : ℕ)
  | boolean (val : Bool)
  | string (val : List Byte)
  | arrayBegin
  | arrayEnd
  | objectBegin
  | objectKey (key : List Byte)
  | objectPairUint32 (key : List Byte) (val : ℕ)
  | objectPairUint64 (key : List Byte) (val : ℕ)
  | objectPairBoolean (key : List Byte) (val : Bool)
  | objectPairString (key val : List Byte)
  | objectEnd
deriving DecidableEq

/-- The argument can be read back from the start of the calls. -/
def Readable {α : Type*} (write : α → List JsonPrinterCall) : Prop :=
  ∀ a b rest rest', write a ++ rest = write b ++ rest' → a = b ∧ rest = rest'

variable {α : Type*} {write : α → List JsonPrinterCall}

theorem Readable.injective (h : Readable write) : Function.Injective write := by
  intro a b hab
  exact (h a b [] [] (by rw [hab])).1

/-- A sequence is readable up to a call with which no element starts. -/
theorem Readable.flatMap (h : Readable write) {stop : JsonPrinterCall}
    (hstop : ∀ a, ∃ c cs, write a = c :: cs ∧ c ≠ stop) :
    Readable fun as : List α => as.flatMap write ++ [stop] := by
  intro as
  induction as with
  | nil =>
    rintro (_ | ⟨b, bs⟩) rest rest' heq
    · exact ⟨rfl, (List.cons.inj heq).2⟩
    · obtain ⟨c, cs, hw, hne⟩ := hstop b
      simp only [List.flatMap_nil, List.flatMap_cons, hw, List.nil_append, List.cons_append] at heq
      exact absurd (List.cons.inj heq).1.symm hne
  | cons a as ih =>
    rintro (_ | ⟨b, bs⟩) rest rest' heq
    · obtain ⟨c, cs, hw, hne⟩ := hstop a
      simp only [List.flatMap_nil, List.flatMap_cons, hw, List.nil_append, List.cons_append] at heq
      exact absurd (List.cons.inj heq).1 hne
    · simp only [List.flatMap_cons, List.append_assoc] at heq
      obtain ⟨rfl, htail⟩ := h a b _ _ heq
      obtain ⟨rfl, hrest⟩ := ih bs rest rest' (by simpa using htail)
      exact ⟨rfl, hrest⟩

end Honas

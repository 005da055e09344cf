/-
  A memory of bytes.

  A word is loaded from and stored to consecutive bytes, the lowest first.
-/
import Honas.Lib.Bits

namespace Memory

open Bits

/-- The byte at every address. -/
abbrev Mem : Type := ℕ → Byte

/-- The `n` bytes from an address on. -/
def bytesAt (mem : Mem) (addr n : ℕ) : List Byte := (List.range n).map fun i => mem (addr + i)

/-- Storing bytes from an address on. -/
def storeBytes (mem : Mem) (addr : ℕ) (bytes : List Byte) : Mem := fun x =>
  if addr ≤ x ∧ x < addr + bytes.length then bytes.getD (x - addr) 0 else mem x

/-- The word of `n` bytes at an address. -/
def load (mem : Mem) (n addr : ℕ) : ℕ := ofLE (bytesAt mem addr n)

/-- Storing a word of `n` bytes. -/
def store (mem : Mem) (n addr w : ℕ) : Mem := storeBytes mem addr (toLE n w)

variable {mem : Mem}

@[simp] theorem length_bytesAt (addr n : ℕ) : (bytesAt mem addr n).length = n := by
  rw [bytesAt, List.length_map, List.length_range]

@[simp] theorem getElem_bytesAt {addr n i : ℕ} (h : i < (bytesAt mem addr n).length) :
    (bytesAt mem addr n)[i] = mem (addr + i) := by
  simp only [bytesAt, List.getElem_map, List.getElem_range]

theorem bytesAt_add (addr m n : ℕ) :
    bytesAt mem addr (m + n) = bytesAt mem addr m ++ bytesAt mem (addr + m) n := by
  rw [bytesAt, List.range_add, List.map_append, List.map_map, bytesAt, bytesAt]
  congr 1
  exact List.map_congr_left fun i _ => by rw [Function.comp_apply, Nat.add_assoc]

end Memory

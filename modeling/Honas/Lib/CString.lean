/-
  C strings in fixed buffers.

  A buffer is the list of its bytes.  `strlen`, `strncpy` and `strncat` work
  on buffers as in C; they return `none` where C would read or write outside
  of a buffer.  `pad cap s` is the buffer of `cap` bytes that holds the string
  `s` and is zero after it; on such buffers the functions are the list
  operations one expects.
-/
import Honas.Lib.Bits

namespace CString

open Bits

/-- `strlen`. -/
def strlen : List Byte → Option ℕ
  | [] => none
  | c :: buf => if c = 0 then some 0 else (strlen buf).map (· + 1)

/-- The bytes that `strncpy` and `strncat` read: at most `n`, up to the
    terminator. -/
def strnread : ℕ → List Byte → Option (List Byte)
  | 0, _ => some []
  | _ + 1, [] => none
  | n + 1, c :: src => if c = 0 then some [] else (strnread n src).map (c :: ·)

/-- `strncpy`. -/
def strncpy (dst src : List Byte) (n : ℕ) : Option (List Byte) := do
  let s ← strnread n src
  if n ≤ dst.length then some (s ++ List.replicate (n - s.length) 0 ++ dst.drop n) else none

/-- `strncat`. -/
def strncat (dst src : List Byte) (n : ℕ) : Option (List Byte) := do
  let len ← strlen dst
  let s ← strnread n src
  if len + s.length + 1 ≤ dst.length then
    some (dst.take len ++ s ++ 0 :: dst.drop (len + s.length + 1))
  else none

/-- `buf[i] = c`. -/
def store (buf : List Byte) (i : ℕ) (c : Byte) : Option (List Byte) :=
  if i < buf.length then some (buf.set i c) else none

/-- The string before the first terminator. -/
def truncate (s : List Byte) : List Byte := s.takeWhile (· ≠ 0)

theorem not_mem_truncate (s : List Byte) : 0 ∉ truncate s := by
  intro h
  have := List.mem_takeWhile_imp h
  simp at this

theorem truncate_eq_self {s : List Byte} (h : 0 ∉ s) : truncate s = s := by
  rw [truncate, List.takeWhile_eq_self_iff]
  intro c hc
  have : c ≠ 0 := fun h0 => h (h0 ▸ hc)
  simpa using this

theorem exists_truncate : ∀ {s : List Byte}, 0 ∈ s → ∃ r, s = truncate s ++ 0 :: r
  | c :: s, h => by
    by_cases hc : c = 0
    · exact ⟨s, by simp [truncate, hc]⟩
    · obtain ⟨r, hr⟩ := exists_truncate ((List.mem_cons.1 h).resolve_left (Ne.symm hc))
      refine ⟨r, ?_⟩
      rw [truncate, List.takeWhile_cons_of_pos (by simpa using hc), List.cons_append]
      exact congrArg _ hr

theorem length_truncate_le (s : List Byte) : (truncate s).length ≤ s.length :=
  (List.takeWhile_prefix _).length_le

/-- The length of a string that is followed by a terminator. -/
theorem strlen_append : ∀ {s r : List Byte}, 0 ∉ s → strlen (s ++ 0 :: r) = some s.length
  | [], _, _ => rfl
  | c :: s, r, h => by
    rw [List.mem_cons, not_or] at h
    rw [List.cons_append, strlen, if_neg (Ne.symm h.1), strlen_append h.2]; rfl

/-- A buffer without a terminator. -/
theorem strlen_eq_none : ∀ {buf : List Byte}, 0 ∉ buf → strlen buf = none
  | [], _ => rfl
  | c :: buf, h => by
    rw [List.mem_cons, not_or] at h
    rw [strlen, if_neg (Ne.symm h.1), strlen_eq_none h.2]
    rfl

/-- Reading all of a source gives the string before its first terminator. -/
theorem strnread_length : ∀ (src r : List Byte),
    strnread src.length (src ++ r) = some (truncate src)
  | [], _ => by simp [strnread, truncate]
  | c :: src, r => by
    rw [List.length_cons, List.cons_append, strnread, strnread_length src r]
    by_cases h : c = 0
    · simp [h, truncate]
    · rw [if_neg h, truncate, truncate, List.takeWhile_cons_of_pos (by simpa using h)]
      rfl

/-- Reading up to a terminator. -/
theorem strnread_terminated : ∀ {n : ℕ} {s r : List Byte}, 0 ∉ s → s.length < n →
    strnread n (s ++ 0 :: r) = some s
  | n + 1, [], r, _, _ => by simp [strnread]
  | n + 1, c :: s, r, h, hn => by
    rw [List.mem_cons, not_or] at h
    rw [List.cons_append, strnread, if_neg (Ne.symm h.1),
      strnread_terminated h.2 (by simpa using hn)]
    rfl

/-! ## Padded buffers -/

/-- The buffer of `cap` bytes with the string `s` and zeros after it. -/
def pad (cap : ℕ) (s : List Byte) : List Byte := s ++ List.replicate (cap - s.length) 0

theorem length_pad {cap : ℕ} {s : List Byte} (h : s.length ≤ cap) : (pad cap s).length = cap := by
  simp [pad]; omega

theorem pad_eq {cap : ℕ} {s : List Byte} (h : s.length < cap) :
    pad cap s = s ++ 0 :: List.replicate (cap - (s.length + 1)) 0 := by
  rw [pad, show cap - s.length = cap - (s.length + 1) + 1 by omega, List.replicate_succ]

theorem strlen_pad (cap : ℕ) {s : List Byte} (h0 : 0 ∉ s) (h : s.length < cap) :
    strlen (pad cap s) = some s.length := by
  rw [pad_eq h, strlen_append h0]

/-- Reading a padded buffer. -/
theorem strnread_pad {cap n : ℕ} {s : List Byte} (h : s.length < cap) (hn : s.length < n) :
    strnread n (pad cap s) = some (truncate s) := by
  have ht := length_truncate_le s
  obtain ⟨r, hr⟩ : ∃ r, pad cap s = truncate s ++ 0 :: r := by
    by_cases h0 : 0 ∈ s
    · obtain ⟨r, hr⟩ := exists_truncate h0
      refine ⟨r ++ List.replicate (cap - s.length) 0, ?_⟩
      rw [← List.cons_append, ← List.append_assoc, ← hr, pad]
    · exact ⟨_, by rw [truncate_eq_self h0, pad_eq h]⟩
  rw [hr, strnread_terminated (not_mem_truncate s) (by omega)]

/-- Copying a string over a whole buffer. -/
theorem strncpy_pad {dst src : List Byte} {cap : ℕ} {s : List Byte} (hd : dst.length = cap)
    (hs : strnread cap src = some s) : strncpy dst src cap = some (pad cap s) := by
  rw [strncpy, hs]
  simp only [Option.bind_eq_bind, Option.bind_some]
  rw [if_pos (by omega), List.drop_of_length_le (by omega), List.append_nil, pad]

/-- Copying a string over zeros. -/
theorem strncpy_zeros {cap : ℕ} {s : List Byte} (h : s.length ≤ cap) :
    strncpy (List.replicate cap 0) s s.length = some (pad cap (truncate s)) := by
  have hread := strnread_length s []
  rw [List.append_nil] at hread
  have ht := length_truncate_le s
  rw [strncpy, hread, Option.bind_eq_bind, Option.bind_some,
    if_pos (by rw [List.length_replicate]; exact h), List.drop_replicate, List.append_assoc,
    List.replicate_append_replicate, pad]
  congr 3
  omega

/-- Storing a byte after the string. -/
theorem store_pad (cap : ℕ) {s : List Byte} (h : s.length < cap) (c : Byte) :
    store (pad cap s) s.length c = some (pad cap (s ++ [c])) := by
  rw [store, if_pos (by rw [length_pad h.le]; exact h), pad_eq h, List.set_append_right _ _ le_rfl]
  simp [pad]

/-- Appending to the string. -/
theorem strncat_pad (cap : ℕ) {n : ℕ} {d src s : List Byte} (hd : 0 ∉ d) (hs : strnread n src = some s)
    (h : d.length + s.length < cap) : strncat (pad cap d) src n = some (pad cap (d ++ s)) := by
  have hlen := strlen_pad cap hd (by omega)
  rw [strncat, hlen, hs]
  simp only [Option.bind_eq_bind, Option.bind_some]
  have hcat : (d ++ s).length < cap := by rw [List.length_append]; exact h
  rw [if_pos (by rw [length_pad (by omega)]; omega), pad_eq hcat, List.length_append, pad,
    List.take_left, List.drop_append, List.drop_of_length_le (by omega), List.nil_append,
    List.drop_replicate]
  congr 4
  omega

/-! ## Copying and terminating -/

/-- A string with its length, copied and then terminated by a store: the buffer
    holds it up to its first zero byte. -/
theorem strncpy_store (dst s : List Byte) (h : s.length < dst.length) :
    ∃ b r, strncpy dst s s.length = some b ∧ store b s.length 0 = some (truncate s ++ 0 :: r) ∧
      (truncate s ++ 0 :: r).length = dst.length := by
  have hread := strnread_length s []
  rw [List.append_nil] at hread
  have ht := length_truncate_le s
  obtain ⟨x, xs, hx⟩ : ∃ x xs, dst.drop s.length = x :: xs :=
    List.exists_cons_of_ne_nil (by rw [Ne, List.drop_eq_nil_iff]; omega)
  have hxs : xs.length + 1 = dst.length - s.length := by
    rw [← List.length_drop, hx, List.length_cons]
  have hfill : (truncate s ++ List.replicate (s.length - (truncate s).length) 0).length = s.length := by
    rw [List.length_append, List.length_replicate]; omega
  refine ⟨truncate s ++ List.replicate (s.length - (truncate s).length) 0 ++ x :: xs,
    List.replicate (s.length - (truncate s).length) 0 ++ xs, ?_, ?_, ?_⟩
  · rw [strncpy, hread]
    simp only [Option.bind_eq_bind, Option.bind_some]
    rw [if_pos h.le, hx]
  · rw [store, if_pos (by rw [List.length_append, hfill, List.length_cons]; omega),
      List.set_append_right _ _ hfill.le, hfill, Nat.sub_self, List.set_cons_zero,
      List.append_assoc, ← List.cons_append, ← List.replicate_succ, List.replicate_succ',
      List.append_assoc, List.singleton_append]
  · rw [List.length_append, List.length_cons, List.length_append, List.length_replicate]; omega

end CString

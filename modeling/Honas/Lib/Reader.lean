/-
  Readers of a buffer that grows at its end.

  A reader looks at the start of the buffer: it waits for more, takes some
  elements, or stops for good.  It is `Stable` if what it takes, or that it
  stops, does not depend on what arrives later.  Then it does not matter how
  the input is cut into chunks (`read_append`).
-/
import Mathlib.Data.List.Basic
import Mathlib.Tactic.Common

namespace Reader

/-- What a reader does with a buffer. -/
inductive Reading (S : Type*) where
  | wait
  | take (state : S) (count : ℕ)
  | stop (state : S)

variable {S E : Type*} {next : S → List E → Reading S}

/-- Later input does not change what was decided. -/
structure Stable (next : S → List E → Reading S) : Prop where
  take_pos : ∀ {s s' buf n}, next s buf = .take s' n → 0 < n
  take_le : ∀ {s s' buf n}, next s buf = .take s' n → n ≤ buf.length
  take_append : ∀ {s s' buf n} (more), next s buf = .take s' n → next s (buf ++ more) = .take s' n
  stop_append : ∀ {s s' buf} (more), next s buf = .stop s' → next s (buf ++ more) = .stop s'

/-- Read as long as the reader takes something, at most `fuel` times: the state,
    and what is left unless the reader stopped. -/
def drain (next : S → List E → Reading S) : ℕ → S → List E → S × Option (List E)
  | 0, s, buf => (s, some buf)
  | fuel + 1, s, buf =>
    match next s buf with
    | .wait => (s, some buf)
    | .take s' n => drain next fuel s' (buf.drop n)
    | .stop s' => (s', none)

/-- Read all that can be read. -/
def read (next : S → List E → Reading S) (s : S) (buf : List E) : S × Option (List E) :=
  drain next (buf.length + 1) s buf

/-- Append a chunk to what is left, and read. -/
def feed (next : S → List E → Reading S) : S × Option (List E) → List E → S × Option (List E)
  | (s, some buf), chunk => read next s (buf ++ chunk)
  | (s, none), _ => (s, none)

/-- More fuel than elements does not matter. -/
theorem drain_eq_read (h : Stable next) : ∀ {fuel : ℕ} {s : S} {buf : List E},
    buf.length < fuel → drain next fuel s buf = read next s buf
  | fuel + 1, s, buf, hf => by
    rw [drain, read, drain]
    cases hn : next s buf with
    | wait => rfl
    | stop s' => rfl
    | take s' n =>
      have hpos := h.take_pos hn
      have hle := h.take_le hn
      have hlen : (buf.drop n).length < buf.length := by rw [List.length_drop]; omega
      dsimp only
      rw [drain_eq_read h (show (buf.drop n).length < fuel by omega), drain_eq_read h hlen]

/-- One step of reading. -/
theorem read_eq (h : Stable next) (s : S) (buf : List E) :
    read next s buf = match next s buf with
      | .wait => (s, some buf)
      | .take s' n => read next s' (buf.drop n)
      | .stop s' => (s', none) := by
  rw [read, drain]
  cases hn : next s buf with
  | wait => rfl
  | stop s' => rfl
  | take s' n =>
    have hpos := h.take_pos hn
    have hle := h.take_le hn
    exact drain_eq_read h (by rw [List.length_drop]; omega)

/-- Reading again does nothing. -/
theorem read_wait {s : S} {buf : List E} (h : next s buf = .wait) :
    read next s buf = (s, some buf) := by
  rw [read, drain, h]

/-- **Reading in two parts.** -/
theorem read_append (h : Stable next) (s : S) (buf more : List E) :
    read next s (buf ++ more) = feed next (read next s buf) more := by
  induction hlen : buf.length using Nat.strongRecOn generalizing s buf with
  | _ len ih =>
    rw [read_eq h s buf]
    cases hn : next s buf with
    | wait => rfl
    | stop s' =>
      rw [read_eq h, h.stop_append more hn]
      rfl
    | take s' n =>
      have hpos := h.take_pos hn
      have hle := h.take_le hn
      rw [read_eq h, h.take_append more hn]
      dsimp only
      rw [List.drop_append_of_le_length hle]
      exact ih _ (by rw [List.length_drop]; omega) _ _ rfl

end Reader

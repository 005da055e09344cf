/-
  The memory accesses of `hllSparseAdd` (`src/hyperloglog.c`).

  `hllInit` allocates `HLL_SPARSE_MAX_BYTES + 3` bytes, of which the first
  `registers.len` are in use.  The functions below are `hllSparseAdd` and what
  it calls with every byte that is read or written: an access outside of the
  allocated block is `none`.  While there is none, they compute what the
  functions on the opcodes do (`mergeBuf_eq`, `splitBuf_eq`, `promoteBuf_eq`,
  `locateBuf_eq`).
-/
import Honas.HyperloglogSpec

namespace Honas

open Bits

/-! ## Accesses -/

/-- Store bytes at `p`, as `memcpy` and the `SET` macros do. -/
def storeBuf (buf : List Byte) (p : ℕ) (seq : List Byte) : Option (List Byte) :=
  if p + seq.length ≤ buf.length then some (splice buf p seq) else none

/-- `memmove(buf + dst, buf + src, n)`. -/
def memmoveBuf (buf : List Byte) (dst src n : ℕ) : Option (List Byte) :=
  if dst + n ≤ buf.length ∧ src + n ≤ buf.length then some (splice buf dst (slice buf src n))
  else none

/-! ## The functions on the block -/

/-- The sparse registers in their block, or the dense registers. -/
inductive HllBuf where
  | sparse (buf : List Byte) (len : ℕ)
  | dense (registers : List Byte)

/-- Step 1 of `hllSparseAdd`; `p` advances in each of at most `n` iterations. -/
def locateBuf (index : ℕ) (buf : List Byte) (len : ℕ) : ℕ → ℕ → ℕ → Option ℕ → Option SparseLoc
  | 0, _, _, _ => none
  | n + 1, p, first, prev =>
    if p < len then do
      let b ← buf[p]?
      if hllSparseIsZero b || hllSparseIsVal b then
        let span := if hllSparseIsZero b then hllSparseZeroLen b else hllSparseValLen b
        if index ≤ first + span - 1 then some ⟨p, first, span, prev⟩
        else locateBuf index buf len n (p + 1) (first + span) (some p)
      else
        let b1 ← buf[p + 1]?
        let span := hllSparseXzeroLen b b1
        if index ≤ first + span - 1 then some ⟨p, first, span, prev⟩
        else locateBuf index buf len n (p + 2) (first + span) (some p)
    else none

/-- The loop of `hllSparseToDense`. -/
def toDenseBuf (buf : List Byte) (len : ℕ) : ℕ → ℕ → List Byte → ℕ → Option (List Byte × ℕ)
  | 0, _, _, _ => none
  | n + 1, p, dense, idx =>
    if p < len then do
      let b ← buf[p]?
      if hllSparseIsZero b then toDenseBuf buf len n (p + 1) dense (idx + hllSparseZeroLen b)
      else if hllSparseIsXzero b then
        let b1 ← buf[p + 1]?
        toDenseBuf buf len n (p + 2) dense (idx + hllSparseXzeroLen b b1)
      else
        toDenseBuf buf len n (p + 1)
          (hllDenseSetRun (hllSparseValValue b) (hllSparseValLen b) dense idx)
          (idx + hllSparseValLen b)
    else some (dense, idx)

/-- Step 4 of `hllSparseAdd`: the block and `registers.len`.  Moving the opcodes
    over a merged one takes a byte from behind their end. -/
def mergeBuf : ℕ → List Byte → ℕ → ℕ → Option (List Byte × ℕ)
  | 0, buf, len, _ => some (buf, len)
  | scanlen + 1, buf, len, p =>
    if p < len then do
      let b ← buf[p]?
      if hllSparseIsXzero b then mergeBuf scanlen buf len (p + 2)
      else if hllSparseIsZero b then mergeBuf scanlen buf len (p + 1)
      else if p + 1 < len then
        let b1 ← buf[p + 1]?
        let runlen := hllSparseValLen b + hllSparseValLen b1
        if hllSparseIsVal b1 ∧ hllSparseValValue b = hllSparseValValue b1 ∧
            runlen ≤ hllSparseValMaxLen then
          let buf ← storeBuf buf (p + 1) (hllSparseValSet (hllSparseValValue b) runlen)
          let buf ← memmoveBuf buf p (p + 1) (len - p)
          mergeBuf scanlen buf (len - 1) p
        else mergeBuf scanlen buf len (p + 1)
      else mergeBuf scanlen buf len (p + 1)
    else some (buf, len)

/-- The label `updated` of `hllSparseAdd`. -/
def updatedBuf (buf : List Byte) (len : ℕ) (prev : Option ℕ) : Option (HllBuf × ℤ) := do
  let (buf, len) ← mergeBuf 5 buf len (prev.getD 0)
  some (.sparse buf len, 1)

/-- The label `promote` of `hllSparseAdd`. -/
def promoteBuf (buf : List Byte) (len : ℕ) (hash : BitVec 64) : Option (HllBuf × ℤ) := do
  let (dense, idx) ← toDenseBuf buf len (len + 1) 0 (List.replicate hllDenseSize 0) 0
  if idx ≠ hllRegisters then some (.sparse buf len, -1)
  else
    let (registers, updated) := hllDenseAdd dense hash
    if updated then some (.dense registers, 1) else none

/-- Step 3 of `hllSparseAdd`: the bytes after the opcode at `p` move, and the
    sequence takes its place. -/
def splitBuf (buf : List Byte) (len p oldlen : ℕ) (seq : List Byte) :
    Option (List Byte × ℕ) := do
  let next := p + oldlen
  let buf ←
    if seq.length ≠ oldlen ∧ next < len then
      memmoveBuf buf (next + seq.length - oldlen) next (len - next)
    else some buf
  let buf ← storeBuf buf p seq
  some (buf, len + seq.length - oldlen)

/-- `hllSparseAdd`. -/
def hllSparseAddBuf (buf : List Byte) (len : ℕ) (hash : BitVec 64) : Option (HllBuf × ℤ) :=
  let (count, index) := hllPatLen hash
  if count > hllSparseValMaxValue then promoteBuf buf len hash
  else if len = 0 then some (.sparse buf len, -1)
  else do
    let loc ← locateBuf index buf len len 0 0 none
    let b ← buf[loc.p]?
    let last := loc.first + loc.span - 1
    if hllSparseIsVal b ∧ hllSparseValValue b ≥ count then some (.sparse buf len, 0)
    else if hllSparseIsVal b ∧ loc.span = 1 then
      let buf ← storeBuf buf loc.p (hllSparseValSet count 1)
      updatedBuf buf len loc.prev
    else if hllSparseIsZero b ∧ loc.span = 1 then
      let buf ← storeBuf buf loc.p (hllSparseValSet count 1)
      updatedBuf buf len loc.prev
    else
      let seq :=
        if hllSparseIsZero b ∨ hllSparseIsXzero b then
          hllSparseSplit hllSparseZeros count index loc.first last
        else hllSparseSplit (hllSparseValSet (hllSparseValValue b)) count index loc.first last
      let oldlen := if hllSparseIsXzero b then 2 else 1
      if seq.length > oldlen ∧ len > hllSparseMaxBytes then promoteBuf buf len hash
      else
        let (buf, len) ← splitBuf buf len loc.p oldlen seq
        updatedBuf buf len loc.prev

/-- `hllAdd`: its result does not depend on the cached cardinality. -/
def hllAddBuf : HllBuf → BitVec 64 → Option (HllBuf × ℤ)
  | .sparse buf len, hash => hllSparseAddBuf buf len hash
  | .dense registers, hash =>
    let (registers, updated) := hllDenseAdd registers hash
    some (.dense registers, if updated then 1 else 0)

/-- `hllInit`. -/
def hllInitBuf : HllBuf :=
  .sparse (hllSparseXzeroSet hllRegisters ++ List.replicate (hllSparseMaxBytes + 1) 0) 2

/-! ## The loops over the opcodes -/

theorem Opcode.bytes_length_pos (o : Opcode) : 0 < o.bytes.length :=
  List.length_pos_iff.2 o.bytes_ne_nil

theorem getElem?_append_cons (P R : List Byte) (b : Byte) : (P ++ b :: R)[P.length]? = some b := by
  rw [List.getElem?_append_right le_rfl, Nat.sub_self, List.getElem?_cons_zero]

theorem getElem?_append_cons_cons (P R : List Byte) (b b1 : Byte) :
    (P ++ b :: b1 :: R)[P.length + 1]? = some b1 := by
  rw [List.getElem?_append_right (Nat.le_add_right _ _), Nat.add_sub_cancel_left]
  rfl

theorem locateBuf_step (index : ℕ) (P : List Byte) (o : Opcode) (rest : List Byte) {len : ℕ}
    (hlen : P.length + o.bytes.length ≤ len) (n first : ℕ) (prev : Option ℕ) :
    locateBuf index (P ++ (o.bytes ++ rest)) len (n + 1) P.length first prev =
      if index ≤ first + o.run then some ⟨P.length, first, o.run + 1, prev⟩
      else locateBuf index (P ++ (o.bytes ++ rest)) len n (P.length + o.bytes.length)
        (first + (o.run + 1)) (some P.length) := by
  have hpos := o.bytes_length_pos
  rw [locateBuf, if_pos (by omega)]
  cases o with
  | zero m =>
    obtain ⟨b, hb, h1, -, -, h4⟩ := zero_bytes m
    rw [hb, List.singleton_append, getElem?_append_cons]
    simp only [Option.bind_eq_bind, Option.bind_some, h1, h4, Bool.true_or, if_true]
    rfl
  | xzero m =>
    obtain ⟨b, b1, hb, h1, -, h3, h4⟩ := xzero_bytes m
    rw [hb, List.cons_append, List.singleton_append, getElem?_append_cons,
      getElem?_append_cons_cons]
    simp only [Option.bind_eq_bind, Option.bind_some, h1, h3, h4, Bool.or_self, Bool.false_eq_true,
      if_false]
    rfl
  | val v m =>
    obtain ⟨b, hb, h1, -, h3, -, h5⟩ := val_bytes v m
    rw [hb, List.singleton_append, getElem?_append_cons]
    simp only [Option.bind_eq_bind, Option.bind_some, h1, h3, h5, Bool.or_true, Bool.false_eq_true,
      if_true, if_false]
    rfl

/-- **Locating** reads the opcodes up to the one it finds. -/
theorem locateBuf_eq {index : ℕ} {loc : SparseLoc} (X : List Byte) : ∀ {ops : List Opcode}
    {P : List Byte} {n first : ℕ} {prev : Option ℕ}, (encode ops).length ≤ n →
      hllSparseLocate index (encode ops) P.length first prev = some loc →
      locateBuf index (P ++ (encode ops ++ X)) (P.length + (encode ops).length) n P.length first
        prev = some loc
  | [], _, _, _, _, _, h => by cases h
  | o :: ops, P, n, first, prev, hn, h => by
    have hpos := o.bytes_length_pos
    rw [encode_cons, List.length_append] at hn
    obtain ⟨n, rfl⟩ : ∃ m, n = m + 1 := ⟨n - 1, by omega⟩
    rw [encode_cons, hllSparseLocate_step] at h
    rw [encode_cons, List.append_assoc, locateBuf_step index P o _ (by rw [List.length_append]; omega)]
    split_ifs at h ⊢ with hin
    · exact h
    · have hn' : (encode ops).length ≤ n := by omega
      have ih := locateBuf_eq X (P := P ++ o.bytes) hn' (by rw [List.length_append]; exact h)
      rw [List.length_append, List.append_assoc] at ih
      rw [List.length_append, ← Nat.add_assoc]
      exact ih

theorem toDenseBuf_step (P : List Byte) (o : Opcode) (rest : List Byte) {len : ℕ}
    (hlen : P.length + o.bytes.length ≤ len) (n : ℕ) (dense : List Byte) (idx : ℕ) :
    toDenseBuf (P ++ (o.bytes ++ rest)) len (n + 1) P.length dense idx =
      toDenseBuf (P ++ (o.bytes ++ rest)) len n (P.length + o.bytes.length)
        (if o.value = 0 then dense else hllDenseSetRun o.value (o.run + 1) dense idx)
        (idx + o.run + 1) := by
  have hpos := o.bytes_length_pos
  rw [toDenseBuf, if_pos (by omega)]
  cases o with
  | zero m =>
    obtain ⟨b, hb, h1, -, -, h4⟩ := zero_bytes m
    rw [hb, List.singleton_append, getElem?_append_cons]
    simp only [Option.bind_eq_bind, Option.bind_some, h1, h4, if_true]
    rfl
  | xzero m =>
    obtain ⟨b, b1, hb, h1, h2, -, h4⟩ := xzero_bytes m
    rw [hb, List.cons_append, List.singleton_append, getElem?_append_cons,
      getElem?_append_cons_cons]
    simp only [Option.bind_eq_bind, Option.bind_some, h1, h2, h4, Bool.false_eq_true, if_false,
      if_true]
    rfl
  | val v m =>
    obtain ⟨b, hb, h1, h2, -, h4, h5⟩ := val_bytes v m
    rw [hb, List.singleton_append, getElem?_append_cons]
    simp only [Option.bind_eq_bind, Option.bind_some, h1, h2, h4, h5, Bool.false_eq_true, if_false]
    rfl

/-- **Converting** reads the opcodes. -/
theorem toDenseBuf_eq {r : List Byte × ℕ} (X : List Byte) : ∀ {ops : List Opcode}
    {P dense : List Byte} {n idx : ℕ}, (encode ops).length < n →
      hllSparseToDenseLoop (encode ops) dense idx = some r →
      toDenseBuf (P ++ (encode ops ++ X)) (P.length + (encode ops).length) n P.length dense idx =
        some r
  | [], P, dense, n, idx, hn, h => by
    obtain ⟨n, rfl⟩ : ∃ m, n = m + 1 := ⟨n - 1, by simp at hn; omega⟩
    rw [toDenseBuf, if_neg (by simp)]
    exact h
  | o :: ops, P, dense, n, idx, hn, h => by
    have hpos := o.bytes_length_pos
    rw [encode_cons, List.length_append] at hn
    obtain ⟨n, rfl⟩ : ∃ m, n = m + 1 := ⟨n - 1, by omega⟩
    rw [encode_cons, hllSparseToDenseLoop_step] at h
    rw [encode_cons, List.append_assoc, toDenseBuf_step P o _ (by rw [List.length_append]; omega)]
    have ih := toDenseBuf_eq X (P := P ++ o.bytes) (n := n) (by omega) h
    rw [List.length_append, List.append_assoc] at ih
    rw [List.length_append, ← Nat.add_assoc]
    exact ih

/-- **Promoting** reads the opcodes, and what it computes is in a block of its
    own. -/
theorem promoteBuf_eq {hll hll' : Hll} {ops : List Opcode} {hash : BitVec 64} (X : List Byte)
    (he : hll.encoding = .sparse) (hb : hll.registers.bytes = encode ops)
    (hl : (expand ops).length = hllRegisters)
    (hp : hllSparsePromote hll hash = some (hll', 1)) :
    promoteBuf (encode ops ++ X) (encode ops).length hash = some (.dense hll'.registers.bytes, 1) ∧
      hll'.encoding = .dense := by
  obtain ⟨dense, hd, -, -⟩ := hllSparseToDenseLoop_spec ops (List.replicate hllDenseSize 0) 0
    (by simp) (by omega) fun i _ => bitAt_replicate _ _
  have hbuf := toDenseBuf_eq X (P := []) (n := (encode ops).length + 1) (Nat.lt_succ_self _) hd
  rw [List.nil_append, List.length_nil, Nat.zero_add] at hbuf
  rw [Nat.zero_add, hl] at hd
  rw [hllSparsePromote, hllSparseToDense, he] at hp
  simp only [hb, hd, Option.bind_eq_bind, Option.bind_some, ne_eq, not_true_eq_false, if_false,
    Bool.not_true, Bool.false_eq_true] at hp
  rw [promoteBuf, hbuf]
  simp only [Option.bind_eq_bind, Option.bind_some, hl, Nat.zero_add, ne_eq, not_true_eq_false,
    if_false]
  split_ifs at hp ⊢ with hup
  obtain ⟨rfl, -⟩ := Prod.mk.inj (Option.some.inj hp)
  exact ⟨rfl, rfl⟩

/-! ## Merging in place -/

theorem mergeBuf_end {scanlen : ℕ} {buf : List Byte} {len p : ℕ} (h : len ≤ p) :
    mergeBuf scanlen buf len p = some (buf, len) := by
  cases scanlen with
  | zero => rfl
  | succ n => rw [mergeBuf, if_neg (by omega)]

theorem storeBuf_eq (A old R seq : List Byte) (h : seq.length = old.length) :
    storeBuf (A ++ (old ++ R)) A.length seq = some (A ++ (seq ++ R)) := by
  rw [storeBuf, if_pos (by simp only [List.length_append]; omega), splice, List.take_left, h,
    ← List.append_assoc A old R, ← List.length_append, List.drop_left, List.append_assoc]

/-- Moving the opcodes behind a merged one takes the byte behind their end. -/
theorem memmoveBuf_merge (P R X : List Byte) (b m x : Byte) :
    memmoveBuf (P ++ (b :: m :: (R ++ x :: X))) P.length (P.length + 1) (R.length + 2) =
      some (P ++ (m :: (R ++ x :: x :: X))) := by
  have hsrc : slice (P ++ (b :: m :: (R ++ x :: X))) (P.length + 1) (R.length + 2) =
      m :: (R ++ [x]) := by
    have hdrop : (P ++ (b :: m :: (R ++ x :: X))).drop (P.length + 1) = m :: (R ++ [x]) ++ X := by
      rw [List.drop_append, List.drop_eq_nil_of_le (by omega), Nat.add_sub_cancel_left]
      simp
    rw [slice, hdrop]
    exact List.take_left' (by simp)
  have hend : (P ++ (b :: m :: (R ++ x :: X))).drop (P.length + (R.length + 2)) = x :: X := by
    rw [List.drop_append, List.drop_eq_nil_of_le (by omega), Nat.add_sub_cancel_left]
    exact List.drop_left' rfl
  rw [memmoveBuf, if_pos (by simp only [List.length_append, List.length_cons]; omega), hsrc, splice,
    List.take_left, show (m :: (R ++ [x])).length = R.length + 2 by simp, hend]
  simp

/-- In a full block there is no such byte. -/
theorem memmoveBuf_full (P R : List Byte) (b m : Byte) :
    memmoveBuf (P ++ (b :: m :: R)) P.length (P.length + 1) (R.length + 2) = none := by
  rw [memmoveBuf, if_neg]
  simp only [List.length_append, List.length_cons]
  omega

/-- What a merge does with two neighbours. -/
theorem Opcode.merge_bytes {o o' both : Opcode} (h : o.merge o' = some both) :
    ∃ b c m, o.bytes = [b] ∧ o'.bytes = [c] ∧ both.bytes = [m] ∧ hllSparseIsZero b = false ∧
      hllSparseIsXzero b = false ∧ hllSparseIsVal c = true ∧
      hllSparseValValue b = hllSparseValValue c ∧
      hllSparseValLen b + hllSparseValLen c ≤ hllSparseValMaxLen ∧
      hllSparseValSet (hllSparseValValue b) (hllSparseValLen b + hllSparseValLen c) = [m] := by
  cases o with
  | zero n => cases h
  | xzero n => cases h
  | val v n =>
    cases o' with
    | zero m => cases h
    | xzero m => cases h
    | val w m =>
      rw [merge] at h
      split_ifs at h with hfit
      obtain rfl := Option.some.inj h
      obtain ⟨b, hb, h1, h2, -, h4, h5⟩ := val_bytes v n
      obtain ⟨c, hc, -, -, hc3, hc4, hc5⟩ := val_bytes w m
      have hset : hllSparseValSet (v + 1) (n + 1 + (m + 1)) =
          (Opcode.val v ⟨n + m + 1, by omega⟩).bytes := by
        rw [bytes]
        congr 1
        change (n : ℕ) + 1 + (m + 1) = n + m + 1 + 1
        omega
      refine ⟨b, c, _, hb, hc, rfl, h1, h2, hc3, by rw [h4, hc4, hfit.1], ?_, ?_⟩
      · rw [h5, hc5]; exact hfit.2
      · rw [h4, h5, hc5]; exact hset

/-- The first steps of a merge: the new opcode is stored, and the others are moved. -/
theorem mergeBuf_moves {o o' both : Opcode} (h : o.merge o' = some both) (scanlen n : ℕ)
    (P R : List Byte) :
    ∃ b m, both.bytes = [m] ∧
      mergeBuf (scanlen + 1) (P ++ (o.bytes ++ (o'.bytes ++ R)))
          (P.length + (o.bytes.length + (o'.bytes.length + n))) P.length =
        (memmoveBuf (P ++ (b :: m :: R)) P.length (P.length + 1) (n + 2)).bind fun buf =>
          mergeBuf scanlen buf (P.length + (1 + n)) P.length := by
  obtain ⟨b, c, m, hb, hc, hm, h1, h2, h3, h4, h5, h6⟩ := Opcode.merge_bytes h
  refine ⟨b, m, hm, ?_⟩
  rw [hb, hc]
  simp only [List.singleton_append, List.length_singleton]
  rw [mergeBuf, if_pos (by omega), getElem?_append_cons, getElem?_append_cons_cons]
  simp only [Option.bind_eq_bind, Option.bind_some, h1, h2, h3, h4, h5, Bool.false_eq_true, if_false,
    and_self, if_true]
  rw [if_pos (by omega), ← h4, h6]
  have hstore := storeBuf_eq (P ++ [b]) [c] R [m] rfl
  simp only [List.append_assoc, List.singleton_append, List.length_append,
    List.length_singleton] at hstore
  rw [hstore, Option.bind_some, show P.length + (1 + (1 + n)) - P.length = n + 2 by omega,
    show P.length + (1 + (1 + n)) - 1 = P.length + (1 + n) by omega]

/-- One merge of the scan. -/
theorem mergeBuf_merge {o o' both : Opcode} (h : o.merge o' = some both) (scanlen : ℕ)
    (P R X : List Byte) (x : Byte) :
    mergeBuf (scanlen + 1) (P ++ (o.bytes ++ (o'.bytes ++ (R ++ x :: X))))
        (P.length + (o.bytes.length + (o'.bytes.length + R.length))) P.length =
      mergeBuf scanlen (P ++ (both.bytes ++ (R ++ x :: x :: X)))
        (P.length + (both.bytes.length + R.length)) P.length := by
  obtain ⟨b, m, hm, hmoves⟩ := mergeBuf_moves h scanlen R.length P (R ++ x :: X)
  rw [hmoves, memmoveBuf_merge, Option.bind_some, hm]
  rfl

/-- The same in a full block. -/
theorem mergeBuf_merge_full {o o' both : Opcode} (h : o.merge o' = some both) (scanlen : ℕ)
    (P R : List Byte) :
    mergeBuf (scanlen + 1) (P ++ (o.bytes ++ (o'.bytes ++ R)))
      (P.length + (o.bytes.length + (o'.bytes.length + R.length))) P.length = none := by
  obtain ⟨b, m, -, hmoves⟩ := mergeBuf_moves h scanlen R.length P R
  rw [hmoves, memmoveBuf_full]
  rfl

/-- Without a merge the scan goes on at the next opcode. -/
theorem mergeBuf_skip {o o' : Opcode} (h : o.merge o' = none) (scanlen : ℕ) (P R : List Byte)
    {len : ℕ} (hlen : P.length + (o.bytes.length + o'.bytes.length) ≤ len) :
    mergeBuf (scanlen + 1) (P ++ (o.bytes ++ (o'.bytes ++ R))) len P.length =
      mergeBuf scanlen (P ++ (o.bytes ++ (o'.bytes ++ R))) len (P.length + o.bytes.length) := by
  have hpos := o.bytes_length_pos
  have hpos' := o'.bytes_length_pos
  rw [mergeBuf, if_pos (by omega)]
  cases o with
  | zero n =>
    obtain ⟨b, hb, h1, h2, -, -⟩ := zero_bytes n
    rw [hb, List.singleton_append, getElem?_append_cons]
    simp only [Option.bind_eq_bind, Option.bind_some, h1, h2, Bool.false_eq_true, if_false, if_true]
    rfl
  | xzero n =>
    obtain ⟨b, b1, hb, -, h2, -, -⟩ := xzero_bytes n
    rw [hb, List.cons_append, List.singleton_append, getElem?_append_cons]
    simp only [Option.bind_eq_bind, Option.bind_some, h2, if_true]
    rfl
  | val v n =>
    obtain ⟨b, hb, h1, h2, -, h4, h5⟩ := val_bytes v n
    rw [hb] at hlen ⊢
    rw [List.length_singleton] at hlen
    obtain ⟨c, R', hc, hno⟩ : ∃ c R', o'.bytes ++ R = c :: R' ∧
        ¬ (hllSparseIsVal c = true ∧ hllSparseValValue b = hllSparseValValue c ∧
          hllSparseValLen b + hllSparseValLen c ≤ hllSparseValMaxLen) := by
      cases o' with
      | zero m =>
        obtain ⟨c, hc, -, -, hc3, -⟩ := zero_bytes m
        refine ⟨c, R, by rw [hc]; rfl, fun hall => ?_⟩
        rw [hc3] at hall
        exact Bool.false_ne_true hall.1
      | xzero m =>
        obtain ⟨c, c1, hc, -, -, hc3, -⟩ := xzero_bytes m
        refine ⟨c, c1 :: R, by rw [hc]; rfl, fun hall => ?_⟩
        rw [hc3] at hall
        exact Bool.false_ne_true hall.1
      | val w m =>
        obtain ⟨c, hc, -, -, -, hc4, hc5⟩ := val_bytes w m
        refine ⟨c, R, by rw [hc]; rfl, fun hall => ?_⟩
        rw [h4, h5, hc4, hc5] at hall
        rw [Opcode.merge, dif_pos ⟨Fin.ext (Nat.add_right_cancel hall.2.1), hall.2.2⟩] at h
        cases h
    rw [hc, List.singleton_append, getElem?_append_cons, getElem?_append_cons_cons]
    simp only [Option.bind_eq_bind, Option.bind_some, h1, h2, Bool.false_eq_true, if_false]
    rw [if_pos (by omega), if_neg hno]
    rfl

/-- The last opcode ends the scan. -/
theorem mergeBuf_last (o : Opcode) (scanlen : ℕ) (P X : List Byte) :
    mergeBuf (scanlen + 1) (P ++ (o.bytes ++ X)) (P.length + o.bytes.length) P.length =
      some (P ++ (o.bytes ++ X), P.length + o.bytes.length) := by
  have hpos := o.bytes_length_pos
  rw [mergeBuf, if_pos (by omega)]
  cases o with
  | zero n =>
    obtain ⟨b, hb, h1, h2, -, -⟩ := zero_bytes n
    rw [hb, List.singleton_append, getElem?_append_cons]
    simp only [Option.bind_eq_bind, Option.bind_some, h1, h2, Bool.false_eq_true, if_false, if_true]
    exact mergeBuf_end le_rfl
  | xzero n =>
    obtain ⟨b, b1, hb, -, h2, -, -⟩ := xzero_bytes n
    rw [hb, List.cons_append, List.singleton_append, getElem?_append_cons]
    simp only [Option.bind_eq_bind, Option.bind_some, h2, if_true]
    exact mergeBuf_end le_rfl
  | val v n =>
    obtain ⟨b, hb, h1, h2, -, -, -⟩ := val_bytes v n
    rw [hb, List.singleton_append, getElem?_append_cons, List.length_singleton]
    simp only [Option.bind_eq_bind, Option.bind_some, h1, h2, Bool.false_eq_true, if_false,
      lt_irrefl]
    exact mergeBuf_end le_rfl

theorem length_mergeOps_le : ∀ (scanlen : ℕ) (ops : List Opcode),
    (mergeOps scanlen ops).length ≤ ops.length
  | 0, _ => le_rfl
  | _ + 1, [] => le_rfl
  | _ + 1, [_] => le_rfl
  | scanlen + 1, o :: o' :: ops => by
    rw [mergeOps]
    cases o.merge o' with
    | some both =>
      have := length_mergeOps_le scanlen (both :: ops)
      simp only [List.length_cons] at this ⊢
      omega
    | none =>
      have := length_mergeOps_le scanlen (o' :: ops)
      simp only [List.length_cons] at this ⊢
      omega

/-- A merge shows in the number of opcodes. -/
theorem mergeOps_ne_of_merge {o o' both : Opcode} (scanlen : ℕ) (ops : List Opcode) :
    mergeOps scanlen (both :: ops) ≠ o :: o' :: ops := by
  intro h
  have := length_mergeOps_le scanlen (both :: ops)
  rw [h] at this
  simp at this

/-- **Merging in a block** with a spare byte, or without anything to merge. -/
theorem mergeBuf_eq : ∀ (scanlen : ℕ) (ops : List Opcode) (P X : List Byte),
    X ≠ [] ∨ mergeOps scanlen ops = ops →
    ∃ X', mergeBuf scanlen (P ++ (encode ops ++ X)) (P.length + (encode ops).length) P.length =
        some (P ++ (encode (mergeOps scanlen ops) ++ X'),
          P.length + (encode (mergeOps scanlen ops)).length) ∧
      (encode (mergeOps scanlen ops)).length + X'.length = (encode ops).length + X.length
  | 0, ops, P, X, _ => ⟨X, rfl, rfl⟩
  | _ + 1, [], P, X, _ => ⟨X, mergeBuf_end le_rfl, rfl⟩
  | scanlen + 1, [o], P, X, _ => by
    rw [mergeOps, encode_cons, encode_nil, List.append_nil]
    exact ⟨X, mergeBuf_last o scanlen P X, rfl⟩
  | scanlen + 1, o :: o' :: ops, P, X, h => by
    rw [mergeOps] at h ⊢
    cases hm : o.merge o' with
    | some both =>
      rw [hm] at h
      obtain ⟨x, X, rfl⟩ :=
        List.exists_cons_of_ne_nil (h.resolve_right (mergeOps_ne_of_merge scanlen ops))
      obtain ⟨X', he, hl⟩ := mergeBuf_eq scanlen (both :: ops) P (x :: x :: X)
        (Or.inl (List.cons_ne_nil _ _))
      obtain ⟨b, c, m, hb, hc, hb', -⟩ := Opcode.merge_bytes hm
      refine ⟨X', ?_, ?_⟩
      · rw [encode_cons, encode_cons, List.append_assoc, List.append_assoc, List.length_append,
          List.length_append, mergeBuf_merge hm, ← he, encode_cons, List.append_assoc,
          List.length_append]
      · rw [hl, encode_cons, encode_cons, encode_cons, hb, hc, hb']
        simp only [List.length_append, List.length_cons, List.length_nil]
        omega
    | none =>
      rw [hm] at h
      dsimp only at h ⊢
      obtain ⟨X', he, hl⟩ := mergeBuf_eq scanlen (o' :: ops) (P ++ o.bytes) X
        (h.imp id fun h => (List.cons.inj h).2)
      refine ⟨X', ?_, ?_⟩
      · have hin : P.length + (o.bytes.length + o'.bytes.length) ≤
            P.length + (encode (o :: o' :: ops)).length := by
          simp only [encode_cons, List.length_append]
          omega
        have hskip := mergeBuf_skip hm scanlen P (encode ops ++ X) hin
        simp only [encode_cons, List.append_assoc, List.length_append] at hskip he ⊢
        rw [hskip]
        rw [Nat.add_assoc] at he
        rw [he, Nat.add_assoc]
      · simp only [encode_cons, List.length_append] at hl ⊢
        omega

/-- **Merging in a full block** reads behind its end. -/
theorem mergeBuf_full : ∀ (scanlen : ℕ) (ops : List Opcode) (P : List Byte),
    mergeOps scanlen ops ≠ ops →
      mergeBuf scanlen (P ++ encode ops) (P.length + (encode ops).length) P.length = none
  | 0, ops, P, h => absurd rfl h
  | _ + 1, [], P, h => absurd rfl h
  | _ + 1, [o], P, h => absurd rfl h
  | scanlen + 1, o :: o' :: ops, P, h => by
    rw [mergeOps] at h
    rw [encode_cons, encode_cons]
    cases hm : o.merge o' with
    | some both =>
      rw [List.length_append, List.length_append]
      exact mergeBuf_merge_full hm scanlen P (encode ops)
    | none =>
      rw [hm] at h
      have ih := mergeBuf_full scanlen (o' :: ops) (P ++ o.bytes) fun he => h (by rw [he])
      rw [mergeBuf_skip hm scanlen P (encode ops) (by simp only [List.length_append]; omega)]
      simp only [encode_cons, List.append_assoc, List.length_append] at ih ⊢
      rw [Nat.add_assoc] at ih
      exact ih

/-! ## Splitting in place -/

/-- **Step 3**: the new sequence replaces the old opcode, if there is room. -/
theorem splitBuf_eq (A old B X : List Byte) {seq : List Byte}
    (h : seq.length ≤ old.length + X.length) :
    ∃ X', splitBuf (A ++ (old ++ (B ++ X))) (A.length + (old.length + B.length)) A.length old.length
        seq = some (A ++ (seq ++ (B ++ X')), A.length + (seq.length + B.length)) ∧
      seq.length + X'.length = old.length + X.length := by
  have hlen : A.length + (old.length + B.length) + seq.length - old.length =
      A.length + (seq.length + B.length) := by omega
  have htotal : (A ++ (old ++ (B ++ X))).length =
      A.length + old.length + B.length + X.length := by
    simp only [List.length_append]; omega
  by_cases hmove : seq.length ≠ old.length ∧ A.length + old.length < A.length + (old.length + B.length)
  · -- the opcodes after the old one are moved, and then the sequence is stored
    set buf := A ++ (old ++ (B ++ X)) with hbuf
    have hdst : A.length + old.length + seq.length - old.length = A.length + seq.length := by omega
    have hn : A.length + (old.length + B.length) - (A.length + old.length) = B.length := by omega
    have hsrc : slice buf (A.length + old.length) B.length = B := by
      rw [slice, hbuf, ← List.append_assoc, ← List.length_append, List.drop_left, List.take_left]
    have hfit : A.length + seq.length + B.length ≤ buf.length ∧
        A.length + old.length + B.length ≤ buf.length := by omega
    have htake : (buf.take (A.length + seq.length)).take A.length = A := by
      rw [List.take_take, min_eq_left (by omega), hbuf, List.take_left]
    have hlenTake : (buf.take (A.length + seq.length)).length = A.length + seq.length := by
      rw [List.length_take]; omega
    refine ⟨buf.drop (A.length + seq.length + B.length), ?_, by rw [List.length_drop]; omega⟩
    rw [splitBuf]
    simp only [hmove, hdst, hn, ne_eq, not_false_eq_true, and_self, if_true, memmoveBuf, hfit, hsrc,
      Option.bind_eq_bind, Option.bind_some, storeBuf, hlen]
    rw [if_pos (by simp only [splice, List.length_append]; omega)]
    simp only [Option.bind_some, Option.some.injEq, Prod.mk.injEq, and_true]
    rw [splice, splice, List.append_assoc (buf.take _), List.take_append_of_le_length (by omega),
      htake, List.drop_left' hlenTake, List.append_assoc]
  · -- nothing is moved
    have hdrop : (A ++ (old ++ (B ++ X))).drop (A.length + seq.length) =
        B ++ ((old ++ (B ++ X)).drop seq.length).drop B.length := by
      rw [List.drop_append, List.drop_eq_nil_of_le (by omega), Nat.add_sub_cancel_left,
        List.nil_append]
      by_cases heq : seq.length = old.length
      · rw [heq, List.drop_left, List.drop_left]
      · have hB : B = [] := by
          refine List.length_eq_zero_iff.1 ?_
          by_contra hB
          exact hmove ⟨heq, by omega⟩
        rw [hB]
        simp
    refine ⟨((old ++ (B ++ X)).drop seq.length).drop B.length, ?_, ?_⟩
    · rw [splitBuf, if_neg hmove]
      simp only [Option.bind_eq_bind, Option.bind_some, storeBuf, htotal]
      rw [if_pos (by omega), Option.bind_some, splice, List.take_left, hdrop, hlen, List.append_assoc]
    · rw [List.length_drop, List.length_drop]
      simp only [List.length_append]
      omega

end Honas

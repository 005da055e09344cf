/-
  Whether `hllSparseAdd` stays inside of its block.

  Between two calls no neighbours are left to merge, and a long run of zero
  registers is one opcode (`SettledOps`).  So a split never merges in the block it
  has filled, and the byte behind the opcodes that a merge moves exists, unless
  the block was full before and the opcode is updated in place, next to one of
  the same value (`FullMerge`).

  `sparseBuffer_bounds_iff`: in every run, all accesses are inside of the block
  exactly if no step does that.
-/
import Honas.HyperloglogBuffer
import Honas.Lib.Run

namespace Honas

open Bits MaxSketch

/-! ## Neighbours that do not merge -/

/-- Two opcodes that do not fit into one. -/
def Opcode.Apart (a b : Opcode) : Prop := a.merge b = none

theorem Opcode.apart_of_value_left {a : Opcode} (h : a.value = 0) (b : Opcode) : a.Apart b := by
  cases a with
  | zero n => rfl
  | xzero n => rfl
  | val v n => cases h

theorem Opcode.apart_of_value_right (a : Opcode) {b : Opcode} (h : b.value = 0) : a.Apart b := by
  cases b with
  | zero n => cases a <;> rfl
  | xzero n => cases a <;> rfl
  | val v n => cases h

theorem Opcode.apart_val_iff {v w : Fin 32} {n m : Fin 4} :
    (val v n).Apart (val w m) ↔ ¬ (v = w ∧ (n : ℕ) + 1 + (m + 1) ≤ 4) := by
  rw [Apart, merge]
  split_ifs with h
  · simp [h]
  · simp [h]

/-- A merged opcode is longer than both, and of the same value. -/
theorem Opcode.exists_of_merge {o o' both : Opcode} (h : o.merge o' = some both) :
    ∃ v n m k, o = val v n ∧ o' = val v m ∧ both = val v k ∧ n ≤ k ∧ m ≤ k := by
  cases o with
  | zero n => cases h
  | xzero n => cases h
  | val v n =>
    cases o' with
    | zero m => cases h
    | xzero m => cases h
    | val w m =>
      rw [merge] at h
      split_ifs at h with hfit
      obtain rfl := Option.some.inj h
      obtain ⟨rfl, hle⟩ := hfit
      exact ⟨v, n, m, _, rfl, rfl, rfl, Fin.mk_le_mk.2 (by omega), Fin.mk_le_mk.2 (by omega)⟩

theorem Opcode.apart_left_of_merge {a o o' both : Opcode} (h : o.merge o' = some both)
    (ha : a.Apart o) : a.Apart both := by
  obtain ⟨v, n, m, k, rfl, rfl, rfl, hn, -⟩ := exists_of_merge h
  cases a with
  | zero i => rfl
  | xzero i => rfl
  | val u i =>
    rw [apart_val_iff] at ha ⊢
    have hn' : (n : ℕ) ≤ k := hn
    exact fun hall => ha ⟨hall.1, by omega⟩

theorem Opcode.apart_right_of_merge {o o' both c : Opcode} (h : o.merge o' = some both)
    (hc : o'.Apart c) : both.Apart c := by
  obtain ⟨v, n, m, k, rfl, rfl, rfl, -, hm⟩ := exists_of_merge h
  cases c with
  | zero i => rfl
  | xzero i => rfl
  | val u i =>
    rw [apart_val_iff] at hc ⊢
    have hm' : (m : ℕ) ≤ k := hm
    exact fun hall => hc ⟨hall.1, by omega⟩

/-- The scan does nothing when all neighbours are apart. -/
theorem mergeOps_of_isChain : ∀ {scanlen : ℕ} {ops : List Opcode}, ops.IsChain Opcode.Apart →
    mergeOps scanlen ops = ops
  | 0, _, _ => rfl
  | _ + 1, [], _ => rfl
  | _ + 1, [_], _ => rfl
  | scanlen + 1, o :: o' :: ops, h => by
    obtain ⟨hapart, htail⟩ := List.isChain_cons_cons.1 h
    rw [mergeOps, show o.merge o' = none from hapart]
    dsimp only
    rw [mergeOps_of_isChain htail]

/-- The first opcode after a scan is the first one, or it has grown. -/
theorem mergeOps_head : ∀ (scanlen : ℕ) (o : Opcode) (ops : List Opcode),
    ∃ first rest, mergeOps scanlen (o :: ops) = first :: rest ∧
      ∀ a : Opcode, a.Apart o → a.Apart first
  | 0, o, ops => ⟨o, ops, rfl, fun _ => id⟩
  | _ + 1, o, [] => ⟨o, [], rfl, fun _ => id⟩
  | scanlen + 1, o, o' :: ops => by
    rw [mergeOps]
    cases hm : o.merge o' with
    | some both =>
      obtain ⟨first, rest, he, ha⟩ := mergeOps_head scanlen both ops
      exact ⟨first, rest, he, fun a h => ha a (Opcode.apart_left_of_merge hm h)⟩
    | none => exact ⟨o, _, rfl, fun _ => id⟩

/-- **A scan settles as many opcodes as it looks at.** -/
theorem isChain_mergeOps : ∀ {scanlen : ℕ} {front back : List Opcode}, front.length ≤ scanlen →
    back.IsChain Opcode.Apart → (mergeOps scanlen (front ++ back)).IsChain Opcode.Apart
  | scanlen, [], back, _, hb => by
    rw [List.nil_append, mergeOps_of_isChain hb]
    exact hb
  | 0, _ :: _, _, hl, _ => by simp at hl
  | scanlen + 1, [x], [], _, _ => List.isChain_singleton x
  | scanlen + 1, [x], y :: back, _, hb => by
    rw [List.singleton_append, mergeOps]
    cases hm : x.merge y with
    | some both =>
      have hback : (both :: back).IsChain Opcode.Apart :=
        List.isChain_cons.2 ⟨fun c hc => Opcode.apart_right_of_merge hm
          ((List.isChain_cons.1 hb).1 c hc), (List.isChain_cons.1 hb).2⟩
      have hnil : ([] : List Opcode).length ≤ scanlen := Nat.zero_le _
      exact isChain_mergeOps hnil hback
    | none =>
      have hnil : ([] : List Opcode).length ≤ scanlen := Nat.zero_le _
      have htail : (mergeOps scanlen (y :: back)).IsChain Opcode.Apart := isChain_mergeOps hnil hb
      obtain ⟨first, rest, he, ha⟩ := mergeOps_head scanlen y back
      dsimp only
      rw [he] at htail ⊢
      exact List.isChain_cons_cons.2 ⟨ha x hm, htail⟩
  | scanlen + 1, x :: y :: front, back, hl, hb => by
    simp only [List.length_cons] at hl
    rw [List.cons_append, List.cons_append, mergeOps]
    cases hm : x.merge y with
    | some both =>
      have hlen : (both :: front).length ≤ scanlen := by rw [List.length_cons]; omega
      exact isChain_mergeOps hlen hb
    | none =>
      have hlen : (y :: front).length ≤ scanlen := by rw [List.length_cons]; omega
      have htail := isChain_mergeOps hlen hb
      obtain ⟨first, rest, he, ha⟩ := mergeOps_head scanlen y (front ++ back)
      dsimp only
      rw [List.cons_append, he] at htail
      rw [he]
      exact List.isChain_cons_cons.2 ⟨ha x hm, htail⟩

/-- A scan finds something to merge exactly if there is something. -/
theorem mergeOps_eq_iff {scanlen : ℕ} {front back : List Opcode} (hl : front.length ≤ scanlen)
    (hb : back.IsChain Opcode.Apart) :
    mergeOps scanlen (front ++ back) = front ++ back ↔ (front ++ back).IsChain Opcode.Apart := by
  constructor
  · intro h
    rw [← h]
    exact isChain_mergeOps hl hb
  · exact mergeOps_of_isChain

theorem xzero_mem_of_mem_mergeOps {n : Fin 16384} : ∀ {scanlen : ℕ} {ops : List Opcode},
    Opcode.xzero n ∈ mergeOps scanlen ops → Opcode.xzero n ∈ ops
  | 0, _, h => h
  | _ + 1, [], h => h
  | _ + 1, [_], h => h
  | scanlen + 1, o :: o' :: ops, h => by
    rw [mergeOps] at h
    cases hm : o.merge o' with
    | some both =>
      rw [hm] at h
      obtain ⟨v, i, j, k, rfl, rfl, rfl, -⟩ := Opcode.exists_of_merge hm
      rcases List.mem_cons.1 (xzero_mem_of_mem_mergeOps h) with h | h
      · cases h
      · exact List.mem_cons_of_mem _ (List.mem_cons_of_mem _ h)
    | none =>
      rw [hm] at h
      rcases List.mem_cons.1 h with h | h
      · exact h ▸ List.mem_cons_self
      · exact List.mem_cons_of_mem _ (xzero_mem_of_mem_mergeOps h)

/-- The opcodes between two calls. -/
structure SettledOps (ops : List Opcode) : Prop where
  apart : ops.IsChain Opcode.Apart
  xzero : ∀ n, Opcode.xzero n ∈ ops → 64 ≤ (n : ℕ)

/-! ## The located opcode -/

/-- `loc` is what step 1 finds for `index` in the opcodes: `o`, after `front` and
    the previous opcode `w`, and before `post`. -/
structure SparseAt (ops : List Opcode) (index : ℕ) (loc : SparseLoc) (front w : List Opcode)
    (o : Opcode) (post : List Opcode) : Prop where
  ops_eq : ops = front ++ (w ++ o :: post)
  locate : hllSparseLocate index (encode ops) 0 0 none = some loc
  p : loc.p = (encode (front ++ w)).length
  first : loc.first = (expand (front ++ w)).length
  span : loc.span = o.run + 1
  first_le : loc.first ≤ index
  le_last : index ≤ loc.first + o.run
  window : w = [] ∧ front = [] ∧ loc.prev = none ∨ ∃ q, w = [q] ∧ loc.prev = some (encode front).length

theorem exists_sparseAt {ops : List Opcode} {index : ℕ} (h : index < (expand ops).length) :
    ∃ loc front w o post, SparseAt ops index loc front w o post := by
  obtain ⟨pre, o, post, prev, rfl, hloc, h1, h2, hprev⟩ := hllSparseLocate_spec ops 0 0 none
    (Nat.zero_le index) (by omega)
  simp only [Nat.zero_add] at hloc h1 h2 hprev
  rcases hprev with ⟨rfl, rfl⟩ | ⟨front, q, rfl, rfl⟩
  · exact ⟨_, [], [], o, post, rfl, hloc, rfl, rfl, rfl, h1, h2, Or.inl ⟨rfl, rfl, rfl⟩⟩
  · exact ⟨_, front, [q], o, post, by simp, hloc, rfl, rfl, rfl, h1, h2, Or.inr ⟨q, rfl, rfl⟩⟩

section

variable {ops : List Opcode} {index : ℕ} {loc : SparseLoc} {front w : List Opcode} {o : Opcode}
  {post : List Opcode}

theorem SparseAt.prev_eq (A : SparseAt ops index loc front w o post) :
    loc.prev.getD 0 = (encode front).length := by
  rcases A.window with ⟨-, rfl, h⟩ | ⟨q, -, h⟩ <;> rw [h] <;> rfl

theorem SparseAt.window_le (A : SparseAt ops index loc front w o post) : w.length ≤ 1 := by
  rcases A.window with ⟨rfl, -⟩ | ⟨q, rfl, -⟩
  · exact Nat.zero_le 1
  · exact le_rfl

/-- The byte at `p` is the first one of the opcode. -/
theorem SparseAt.head (A : SparseAt ops index loc front w o post) {b : Byte} {bs : List Byte}
    (h : o.bytes = b :: bs) (X : List Byte) :
    (encode ops ++ X)[loc.p]? = some b ∧ (encode ops).getD loc.p 0 = b := by
  have hops : encode ops = encode (front ++ w) ++ b :: (bs ++ encode post) := by
    rw [A.ops_eq, ← List.append_assoc, encode_append, encode_cons, h, List.cons_append]
  constructor
  · rw [A.p, hops, List.append_assoc, List.cons_append]
    exact getElem?_append_cons _ _ _
  · rw [List.getD_eq_getElem?_getD, A.p, hops, getElem?_append_cons, Option.getD_some]

/-- The opcodes with the located one replaced. -/
def replaced (front w seq post : List Opcode) : List Opcode := front ++ (w ++ seq ++ post)

/-- A sequence that can replace an opcode. -/
structure Replaces (o : Opcode) (seq : List Opcode) : Prop where
  length : seq.length ≤ 3
  covers : (expand seq).length = o.run + 1
  xzero : ∀ n, Opcode.xzero n ∈ seq → 64 ≤ (n : ℕ)

/-- **After an update** the opcodes are settled again. -/
theorem SparseAt.settled (A : SparseAt ops index loc front w o post) (hs : SettledOps ops)
    {seq : List Opcode} (hr : Replaces o seq) :
    SettledOps (front ++ mergeOps 5 (w ++ seq ++ post)) ∧
      (expand (front ++ mergeOps 5 (w ++ seq ++ post))).length = (expand ops).length := by
  have hlen : (w ++ seq).length ≤ 5 := by
    have h1 := A.window_le
    have h2 := hr.length
    rw [List.length_append]
    omega
  have hchain := hs.apart
  rw [A.ops_eq] at hchain
  obtain ⟨hfront, hrest, hjoin⟩ := List.isChain_append.1 hchain
  have hpost : post.IsChain Opcode.Apart :=
    (List.isChain_cons.1 (List.isChain_append.1 hrest).2.1).2
  refine ⟨⟨List.isChain_append.2 ⟨hfront, isChain_mergeOps hlen hpost, fun a ha b hb => ?_⟩,
    fun n hn => ?_⟩, ?_⟩
  · -- what comes before the window is apart from its first opcode
    rcases A.window with ⟨-, rfl, -⟩ | ⟨q, rfl, -⟩
    · cases ha
    · obtain ⟨first, rest, he, hgrow⟩ := mergeOps_head 5 q (seq ++ post)
      have hmid : [q] ++ seq ++ post = q :: (seq ++ post) := rfl
      rw [hmid, he] at hb
      obtain rfl : first = b := Option.some.inj hb
      exact hgrow a (hjoin a ha q rfl)
  · rcases List.mem_append.1 hn with hn | hn
    · exact hs.xzero n (A.ops_eq ▸ List.mem_append_left _ hn)
    · have hn := xzero_mem_of_mem_mergeOps hn
      rcases List.mem_append.1 hn with hn | hn
      · rcases List.mem_append.1 hn with hn | hn
        · exact hs.xzero n (A.ops_eq ▸ List.mem_append_right _ (List.mem_append_left _ hn))
        · exact hr.xzero n hn
      · exact hs.xzero n (A.ops_eq ▸ List.mem_append_right _
          (List.mem_append_right _ (List.mem_cons_of_mem _ hn)))
  · have hcov := hr.covers
    rw [A.ops_eq]
    simp only [expand_append, expand_cons, expand_mergeOps, List.length_append, o.length_regs, hcov]
    omega

/-! ## The state of a counter and its block -/

/-- The block of a counter. -/
inductive BufOf : HllBuf → Hll → Prop
  | sparse {hll : Hll} {ops : List Opcode} {X : List Byte} : hll.encoding = .sparse →
      hll.registers.bytes = encode ops → SettledOps ops → (expand ops).length = hllRegisters →
      (encode ops).length + X.length = hllSparseMaxBytes + 3 →
      BufOf (.sparse (encode ops ++ X) (encode ops).length) hll
  | dense {hll : Hll} : hll.encoding = .dense → BufOf (.dense hll.registers.bytes) hll

/-- **Merging after an update** stays in the block if there is a spare byte or
    nothing to merge. -/
theorem SparseAt.updatedBuf_eq (A : SparseAt ops index loc front w o post) (hs : SettledOps ops)
    (hc : (expand ops).length = hllRegisters) {seq : List Opcode} (hr : Replaces o seq) {hll : Hll}
    (he : hll.encoding = .sparse) {X : List Byte}
    (hX : (encode (replaced front w seq post)).length + X.length = hllSparseMaxBytes + 3)
    (hok : X ≠ [] ∨ (w ++ seq ++ post).IsChain Opcode.Apart) :
    ∃ s, updatedBuf (encode (replaced front w seq post) ++ X)
        (encode (replaced front w seq post)).length loc.prev = some (s, 1) ∧
      BufOf s (hllSparseUpdated hll (encode (replaced front w seq post)) loc.prev).1 := by
  obtain ⟨hset, hcov⟩ := A.settled hs hr
  obtain ⟨X', hm, hl⟩ := mergeBuf_eq 5 (w ++ seq ++ post) (encode front) X
    (hok.imp id mergeOps_of_isChain)
  have hlist : hllSparseUpdated hll (encode (replaced front w seq post)) loc.prev =
      ({ hll with registers := { hll.registers with
        bytes := encode (front ++ mergeOps 5 (w ++ seq ++ post)) } }.invalidateCache, 1) := by
    rw [hllSparseUpdated, A.prev_eq, replaced, encode_append, List.take_left, List.drop_left,
      hllSparseMerge_encode, encode_append]
  refine ⟨.sparse (encode (front ++ mergeOps 5 (w ++ seq ++ post)) ++ X')
    (encode (front ++ mergeOps 5 (w ++ seq ++ post))).length, ?_, ?_⟩
  · rw [updatedBuf, A.prev_eq, replaced, encode_append, List.append_assoc, List.length_append, hm]
    simp only [Option.bind_eq_bind, Option.bind_some, encode_append, List.append_assoc,
      List.length_append]
  · rw [hlist]
    refine .sparse he rfl hset (hcov.trans hc) ?_
    rw [replaced, encode_append, List.length_append] at hX
    rw [encode_append, List.length_append]
    omega

/-- Otherwise it reads behind the end of the block. -/
theorem SparseAt.updatedBuf_full (A : SparseAt ops index loc front w o post) (hs : SettledOps ops)
    {seq : List Opcode} (hr : Replaces o seq)
    (hbad : ¬ (w ++ seq ++ post).IsChain Opcode.Apart) :
    updatedBuf (encode (replaced front w seq post)) (encode (replaced front w seq post)).length
      loc.prev = none := by
  have hlen : (w ++ seq).length ≤ 5 := by
    have h1 := A.window_le
    have h2 := hr.length
    rw [List.length_append]
    omega
  have hpost : post.IsChain Opcode.Apart := by
    have hchain := hs.apart
    rw [A.ops_eq] at hchain
    exact (List.isChain_cons.1 (List.isChain_append.1 (List.isChain_append.1 hchain).2.1).2.1).2
  have hm := mergeBuf_full 5 (w ++ seq ++ post) (encode front)
    (fun h => hbad ((mergeOps_eq_iff hlen hpost).1 h))
  rw [updatedBuf, A.prev_eq, replaced, encode_append, List.length_append, hm]
  rfl

end

/-! ## The parts of a split -/

/-- The opcodes of `len` registers of value `v` beside the new one. -/
def Part (write : ℕ → List Byte) (v len : ℕ) (s : List Opcode) : Prop :=
  len = 0 ∧ s = [] ∨
    ∃ o : Opcode, s = [o] ∧ 0 < len ∧ write len = o.bytes ∧ o.regs = List.replicate len v

section

variable {write : ℕ → List Byte} {v len n : ℕ} {s s₁ s₂ : List Opcode}

theorem exists_part (len : ℕ) (b : Prop) [Decidable b] (hb : b ↔ len ≠ 0)
    (hw : 0 < len → ∃ o : Opcode, write len = o.bytes ∧ o.regs = List.replicate len v) :
    ∃ s, (if b then write len else []) = encode s ∧ Part write v len s := by
  by_cases h : b
  · have hpos : 0 < len := Nat.pos_of_ne_zero (hb.1 h)
    obtain ⟨o, hwrite, hregs⟩ := hw hpos
    refine ⟨[o], ?_, Or.inr ⟨o, rfl, hpos, hwrite, hregs⟩⟩
    rw [if_pos h, hwrite, encode_cons, encode_nil, List.append_nil]
  · refine ⟨[], by rw [if_neg h]; rfl, Or.inl ⟨?_, rfl⟩⟩
    by_contra h0
    exact h (hb.2 h0)

/-- **The opcodes of a split**: those on the left, the new one, and those on the
    right. -/
theorem exists_split {index first : ℕ} (c : Fin 32) (h1 : first ≤ index) (h2 : index ≤ first + n)
    (hw : ∀ len, 0 < len → len ≤ n →
      ∃ o : Opcode, write len = o.bytes ∧ o.regs = List.replicate len v) :
    ∃ s₁ s₂, hllSparseSplit write (c + 1) index first (first + n) =
        encode (s₁ ++ .val c 0 :: s₂) ∧
      Part write v (index - first) s₁ ∧ Part write v (first + n - index) s₂ := by
  obtain ⟨s₁, he₁, hp₁⟩ := exists_part (index - first) (index ≠ first)
    (by omega) fun h => hw _ h (by omega)
  obtain ⟨s₂, he₂, hp₂⟩ := exists_part (first + n - index) (index ≠ first + n)
    (by omega) fun h => hw _ h (by omega)
  refine ⟨s₁, s₂, ?_, hp₁, hp₂⟩
  rw [hllSparseSplit, he₁, he₂, encode_append, encode_cons, List.append_assoc]
  rfl

theorem Part.length_le (h : Part write v len s) : s.length ≤ 1 := by
  rcases h with ⟨-, rfl⟩ | ⟨o, rfl, -⟩
  · exact Nat.zero_le 1
  · exact le_rfl

theorem Part.covers (h : Part write v len s) : (expand s).length = len := by
  rcases h with ⟨rfl, rfl⟩ | ⟨o, rfl, -, -, hregs⟩
  · rfl
  · rw [expand_cons, expand_nil, List.append_nil, hregs, List.length_replicate]

theorem Part.value (h : Part write v len s) : ∀ o ∈ s, o.value = v := by
  rcases h with ⟨-, rfl⟩ | ⟨o, rfl, hpos, -, hregs⟩
  · simp
  · intro o' ho'
    rw [List.mem_singleton.1 ho']
    have hmem : o.value ∈ o.regs := by
      rw [Opcode.regs]
      exact List.mem_replicate.2 ⟨Nat.succ_ne_zero _, rfl⟩
    rw [hregs] at hmem
    exact (List.mem_replicate.1 hmem).2

theorem Part.eq_nil_iff (h : Part write v len s) : s = [] ↔ len = 0 := by
  rcases h with ⟨rfl, rfl⟩ | ⟨o, rfl, hpos, -⟩
  · simp
  · simp only [List.cons_ne_nil, false_iff]
    omega

/-- The bytes of zero registers beside the new one. -/
theorem Part.length_encode_zeros (h : Part hllSparseZeros v len s) :
    (encode s).length = if len = 0 then 0 else if len ≤ 64 then 1 else 2 := by
  rcases h with ⟨rfl, rfl⟩ | ⟨o, rfl, hpos, hwrite, -⟩
  · rfl
  · rw [encode_cons, encode_nil, List.append_nil, ← hwrite, hllSparseZeros, hllSparseZeroMaxLen]
    by_cases h64 : len > 64
    · rw [if_pos h64, if_neg (by omega), if_neg (by omega)]
      rfl
    · rw [if_neg h64, if_neg (by omega), if_pos (by omega)]
      rfl

theorem Part.length_encode (h : Part write v len s) (hw : 0 < len → (write len).length = 1) :
    (encode s).length = if len = 0 then 0 else 1 := by
  rcases h with ⟨rfl, rfl⟩ | ⟨o, rfl, hpos, hwrite, -⟩
  · rfl
  · rw [encode_cons, encode_nil, List.append_nil, ← hwrite, hw hpos, if_neg (by omega)]

/-- A long run of zero registers is written as one opcode. -/
theorem Part.xzero (h : Part write v len s) (hw : len ≤ 64 → (write len).length = 1)
    {i : Fin 16384} (hi : Opcode.xzero i ∈ s) : 64 ≤ (i : ℕ) := by
  rcases h with ⟨-, rfl⟩ | ⟨o, rfl, hpos, hwrite, hregs⟩
  · simp at hi
  · obtain rfl := List.mem_singleton.1 hi
    have hlen := congrArg List.length hregs
    rw [Opcode.length_regs, List.length_replicate] at hlen
    by_contra hlt
    have hrun : (Opcode.xzero i).run = i := rfl
    have hone := hw (by omega)
    rw [hwrite] at hone
    cases hone

/-- The parts and the new opcode replace the old one. -/
theorem Part.replaces {o : Opcode} {c : Fin 32} {l₁ l₂ : ℕ} (h₁ : Part write v l₁ s₁)
    (h₂ : Part write v l₂ s₂) (hlen : l₁ + l₂ = o.run)
    (hw : ∀ len, len ≤ 64 → len ≤ o.run → 0 < len → (write len).length = 1) :
    Replaces o (s₁ ++ .val c 0 :: s₂) := by
  refine ⟨?_, ?_, fun n hn => ?_⟩
  · have := h₁.length_le
    have := h₂.length_le
    simp only [List.length_append, List.length_cons]
    omega
  · rw [expand_append, expand_cons, List.length_append, List.length_append, h₁.covers, h₂.covers,
      Opcode.length_regs]
    change l₁ + (0 + 1 + l₂) = o.run + 1
    omega
  · have hpart : ∀ {s : List Opcode} {len : ℕ}, Part write v len s → len ≤ o.run →
        Opcode.xzero n ∈ s → 64 ≤ (n : ℕ) := by
      intro s len h hle hmem
      refine h.xzero (fun h64 => hw len h64 hle ?_) hmem
      rcases h with ⟨-, rfl⟩ | ⟨o, -, hpos, -⟩
      · simp at hmem
      · exact hpos
    rcases List.mem_append.1 hn with hn | hn
    · exact hpart h₁ (by omega) hn
    · rcases List.mem_cons.1 hn with hn | hn
      · cases hn
      · exact hpart h₂ (by omega) hn

end

/-- Between parts of zero registers the new opcode has no neighbour to merge with. -/
theorem isChain_replaced_iff {w post s₁ s₂ : List Opcode} {o : Opcode} {c : Fin 32}
    (hw : w.length ≤ 1) (h : (w ++ o :: post).IsChain Opcode.Apart) (h₁ : s₁.length ≤ 1)
    (h₂ : s₂.length ≤ 1) (hz₁ : ∀ z ∈ s₁, z.value = 0) (hz₂ : ∀ z ∈ s₂, z.value = 0) :
    (w ++ (s₁ ++ .val c 0 :: s₂) ++ post).IsChain Opcode.Apart ↔
      (s₁ = [] → ∀ q, w = [q] → q.Apart (.val c 0)) ∧
        (s₂ = [] → ∀ r ∈ post.head?, (Opcode.val c 0).Apart r) := by
  have hpost : post.IsChain Opcode.Apart :=
    (List.isChain_cons.1 (List.isChain_append.1 h).2.1).2
  have hleft : ∀ {z : Opcode}, z.value = 0 → ∀ b, z.Apart b := fun hz b =>
    Opcode.apart_of_value_left hz b
  have hright : ∀ {z : Opcode}, z.value = 0 → ∀ a : Opcode, a.Apart z := fun hz a =>
    Opcode.apart_of_value_right a hz
  -- the part on the right
  have hback : (.val c 0 :: (s₂ ++ post)).IsChain Opcode.Apart ↔
      (s₂ = [] → ∀ r ∈ post.head?, (Opcode.val c 0).Apart r) := by
    match s₂, h₂, hz₂ with
    | [], _, _ => simp [List.isChain_cons, hpost]
    | [z], _, hz₂ =>
      have hz := hz₂ z (List.mem_singleton_self z)
      simp [List.isChain_cons, hpost, hright hz, hleft hz]
  -- the part on the left
  have hfront : (w ++ (s₁ ++ .val c 0 :: (s₂ ++ post))).IsChain Opcode.Apart ↔
      (s₁ = [] → ∀ q, w = [q] → q.Apart (.val c 0)) ∧
        (.val c 0 :: (s₂ ++ post)).IsChain Opcode.Apart := by
    match w, hw, s₁, h₁, hz₁ with
    | [], _, [], _, _ => simp
    | [q], _, [], _, _ => simp [List.isChain_cons_cons]
    | [], _, [z], _, hz₁ =>
      have hz := hz₁ z (List.mem_singleton_self z)
      simp [List.isChain_cons_cons, hleft hz]
    | [q], _, [z], _, hz₁ =>
      have hz := hz₁ z (List.mem_singleton_self z)
      simp [List.isChain_cons_cons, hright hz, hleft hz]
  rw [← hback, ← hfront, List.append_assoc, List.append_assoc]
  rfl

/-! ## Merging in a full block -/

/-- The opcode can be updated without growing. -/
def Opcode.InPlace : Opcode → Prop
  | xzero n => (n : ℕ) ≤ 64
  | zero n => (n : ℕ) = 0
  | val _ n => (n : ℕ) = 0

/-- A `VAL` opcode that has the value and room for one more register. -/
def Opcode.Absorbs (count : ℕ) : Opcode → Prop
  | zero _ | xzero _ => False
  | val v n => (v : ℕ) + 1 = count ∧ (n : ℕ) + 1 < hllSparseValMaxLen

/-- The opcodes fill the block, and the hash updates its opcode `o` without
    growing, next to an opcode that has the new value and room for one more
    register. -/
def FullMerge (ops : List Opcode) (hash : BitVec 64) : Prop :=
  let (count, index) := hllPatLen hash
  (encode ops).length = hllSparseMaxBytes + 3 ∧ count ≤ hllSparseValMaxValue ∧
  ∃ pre o post, ops = pre ++ o :: post ∧
    (expand pre).length ≤ index ∧ index ≤ (expand pre).length + o.run ∧
    o.value < count ∧ o.InPlace ∧
    (index = (expand pre).length ∧ (∃ q ∈ pre.getLast?, q.Absorbs count) ∨
      index = (expand pre).length + o.run ∧ ∃ r ∈ post.head?, r.Absorbs count)

theorem Opcode.absorbs_iff (q : Opcode) (c : Fin 32) :
    (q.Absorbs (c + 1) ↔ ¬ q.Apart (.val c 0)) ∧ (q.Absorbs (c + 1) ↔ ¬ (Opcode.val c 0).Apart q) := by
  have hother : q.value = 0 → ¬ q.Absorbs (c + 1) → (q.Absorbs (c + 1) ↔ ¬ q.Apart (.val c 0)) ∧
      (q.Absorbs (c + 1) ↔ ¬ (Opcode.val c 0).Apart q) := fun h hno =>
    ⟨iff_of_false hno (not_not.2 (apart_of_value_left h _)),
      iff_of_false hno (not_not.2 (apart_of_value_right _ h))⟩
  cases q with
  | zero n => exact hother rfl id
  | xzero n => exact hother rfl id
  | val v n =>
    have hzero : ((0 : Fin 4) : ℕ) = 0 := rfl
    have hmax : hllSparseValMaxLen = 4 := rfl
    rw [apart_val_iff, apart_val_iff, not_not, not_not, Absorbs, hzero, hmax, Fin.ext_iff, Fin.ext_iff]
    constructor
    · exact ⟨fun h => ⟨by omega, by omega⟩, fun h => ⟨by omega, by omega⟩⟩
    · exact ⟨fun h => ⟨by omega, by omega⟩, fun h => ⟨by omega, by omega⟩⟩

/-- Only one opcode covers a register. -/
theorem covering_unique {pre pre' post post' : List Opcode} {o o' : Opcode} {index : ℕ}
    (h : pre ++ o :: post = pre' ++ o' :: post')
    (h1 : (expand pre).length ≤ index) (h2 : index ≤ (expand pre).length + o.run)
    (h1' : (expand pre').length ≤ index) (h2' : index ≤ (expand pre').length + o'.run) :
    pre = pre' ∧ o = o' ∧ post = post' := by
  rcases List.append_eq_append_iff.1 h with ⟨mid, rfl, hmid⟩ | ⟨mid, rfl, hmid⟩
  · cases mid with
    | nil =>
      obtain ⟨rfl, rfl⟩ := List.cons.inj hmid
      exact ⟨(List.append_nil _).symm, rfl, rfl⟩
    | cons a mid =>
      obtain ⟨rfl, -⟩ := List.cons.inj hmid
      rw [expand_append, expand_cons, List.length_append, List.length_append, o.length_regs] at h1'
      omega
  · cases mid with
    | nil =>
      obtain ⟨rfl, rfl⟩ := List.cons.inj hmid
      exact ⟨List.append_nil _, rfl, rfl⟩
    | cons a mid =>
      obtain ⟨rfl, -⟩ := List.cons.inj hmid
      rw [expand_append, expand_cons, List.length_append, List.length_append, o'.length_regs] at h1
      omega

section

variable {ops : List Opcode} {index : ℕ} {loc : SparseLoc} {front w : List Opcode} {o : Opcode}
  {post : List Opcode}

/-- **The condition** at the located opcode. -/
theorem SparseAt.fullMerge_iff (A : SparseAt ops index loc front w o post) {hash : BitVec 64}
    (hi : (hllPatLen hash).2 = index) {c : Fin 32} (hcount : (hllPatLen hash).1 = c + 1) :
    FullMerge ops hash ↔
      (encode ops).length = hllSparseMaxBytes + 3 ∧ o.value < c + 1 ∧ o.InPlace ∧
        (index = loc.first ∧ (∃ q, w = [q] ∧ ¬ q.Apart (.val c 0)) ∨
          index = loc.first + o.run ∧ ∃ r ∈ post.head?, ¬ (Opcode.val c 0).Apart r) := by
  have hle : (c : ℕ) + 1 ≤ hllSparseValMaxValue := c.isLt
  have h1 := A.first_le
  have h2 := A.le_last
  have hops := A.ops_eq
  rw [A.first] at h1 h2
  rw [← List.append_assoc] at hops
  have hprev : (∃ q ∈ (front ++ w).getLast?, q.Absorbs (c + 1)) ↔
      ∃ q, w = [q] ∧ ¬ q.Apart (.val c 0) := by
    rcases A.window with ⟨rfl, rfl, -⟩ | ⟨q, rfl, -⟩
    · simp
    · simp [(q.absorbs_iff c).1]
  have hnext : (∃ r ∈ post.head?, r.Absorbs (c + 1)) ↔
      ∃ r ∈ post.head?, ¬ (Opcode.val c 0).Apart r :=
    exists_congr fun r => and_congr_right fun _ => (r.absorbs_iff c).2
  rw [FullMerge, show hllPatLen hash = ((c : ℕ) + 1, index) from Prod.ext hcount hi]
  dsimp only
  rw [and_iff_right hle, A.first, ← hprev, ← hnext]
  refine and_congr_right fun _ => ⟨?_, ?_⟩
  · rintro ⟨pre, o', post', heq, h1', h2', hv, hplace, hnb⟩
    obtain ⟨rfl, rfl, rfl⟩ := covering_unique (hops.symm.trans heq) h1 h2 h1' h2'
    exact ⟨hv, hplace, hnb⟩
  · rintro ⟨hv, hplace, hnb⟩
    exact ⟨_, o, post, hops, h1, h2, hv, hplace, hnb⟩

end

/-! ## A step -/

/-- The outcome of an addition to a block, and of the addition to the counter:
    there is an access outside of the block, or the two agree. -/
def Outcome (bad : Prop) (r : Option (HllBuf × ℤ)) (r' : Option (Hll × ℤ)) : Prop :=
  (bad → r = none) ∧
    (¬ bad → ∃ s hll updated, r = some (s, updated) ∧ r' = some (hll, updated) ∧ BufOf s hll)

section

variable {ops : List Opcode} {index : ℕ} {loc : SparseLoc} {front w : List Opcode} {o : Opcode}
  {post : List Opcode} {hll : Hll} {X : List Byte}

/-- An update, once the new opcodes are stored. -/
theorem SparseAt.outcome (A : SparseAt ops index loc front w o post) (hs : SettledOps ops)
    (hc : (expand ops).length = hllRegisters) (he : hll.encoding = .sparse) {seq : List Opcode}
    (hr : Replaces o seq)
    (hX : (encode (replaced front w seq post)).length + X.length = hllSparseMaxBytes + 3)
    {bad : Prop} (hbad : bad ↔ X = [] ∧ ¬ (w ++ seq ++ post).IsChain Opcode.Apart) :
    Outcome bad (updatedBuf (encode (replaced front w seq post) ++ X)
        (encode (replaced front w seq post)).length loc.prev)
      (some (hllSparseUpdated hll (encode (replaced front w seq post)) loc.prev)) := by
  constructor
  · intro h
    obtain ⟨rfl, hno⟩ := hbad.1 h
    rw [List.append_nil]
    exact A.updatedBuf_full hs hr hno
  · intro h
    obtain ⟨s, hu, hb⟩ := A.updatedBuf_eq hs hc hr he hX (by
      by_cases hnil : X = []
      · exact Or.inr (not_not.1 fun hno => h (hbad.2 ⟨hnil, hno⟩))
      · exact Or.inl hnil)
    exact ⟨s, _, 1, hu, rfl, hb⟩

/-- The opcodes around the located one. -/
theorem SparseAt.encode_eq (A : SparseAt ops index loc front w o post) :
    encode ops = encode (front ++ w) ++ (o.bytes ++ encode post) := by
  rw [A.ops_eq, ← List.append_assoc, encode_append, encode_cons]

theorem encode_replaced (front w seq post : List Opcode) :
    encode (replaced front w seq post) = encode (front ++ w) ++ (encode seq ++ encode post) := by
  simp only [replaced, encode_append, List.append_assoc]

/-- Storing one opcode over another. -/
theorem SparseAt.store_eq (A : SparseAt ops index loc front w o post) {c : Fin 32}
    (ho : o.bytes.length = 1) :
    storeBuf (encode ops ++ X) loc.p (hllSparseValSet (c + 1) 1) =
        some (encode (replaced front w [.val c 0] post) ++ X) ∧
      splice (encode ops) loc.p (hllSparseValSet (c + 1) 1) =
        encode (replaced front w [.val c 0] post) := by
  have hval : encode [.val c 0] = hllSparseValSet (c + 1) 1 := by
    rw [encode_cons, encode_nil, List.append_nil]
    rfl
  have hone : (hllSparseValSet (c + 1) 1).length = o.bytes.length := ho.symm
  constructor
  · rw [A.p, A.encode_eq, encode_replaced, hval, List.append_assoc, List.append_assoc,
      storeBuf_eq _ _ _ _ hone, List.append_assoc, List.append_assoc]
  · rw [A.p, A.encode_eq, encode_replaced, hval, splice, List.take_left, hone, ← List.append_assoc,
      ← List.length_append, List.drop_left, List.append_assoc]

/-- Storing a longer sequence over an opcode. -/
theorem SparseAt.split_eq (A : SparseAt ops index loc front w o post) {seq : List Opcode}
    (hroom : (encode seq).length ≤ o.bytes.length + X.length) :
    ∃ X', splitBuf (encode ops ++ X) (encode ops).length loc.p o.bytes.length (encode seq) =
        some (encode (replaced front w seq post) ++ X', (encode (replaced front w seq post)).length) ∧
      (encode seq).length + X'.length = o.bytes.length + X.length ∧
      (encode ops).take loc.p ++ encode seq ++ (encode ops).drop (loc.p + o.bytes.length) =
        encode (replaced front w seq post) := by
  obtain ⟨X', he, hl⟩ := splitBuf_eq (encode (front ++ w)) o.bytes (encode post) X hroom
  refine ⟨X', ?_, hl, ?_⟩
  · rw [A.p, A.encode_eq, encode_replaced]
    simp only [List.append_assoc, List.length_append] at he ⊢
    exact he
  · rw [A.p, A.encode_eq, encode_replaced, List.take_left, ← List.append_assoc, ← List.length_append,
      List.drop_left, ← List.append_assoc, List.append_assoc _ (encode seq)]

/-- An opcode for one register is updated in place. -/
theorem SparseAt.store_outcome (A : SparseAt ops index loc front w o post) (hs : SettledOps ops)
    (hc : (expand ops).length = hllRegisters) (he : hll.encoding = .sparse)
    (hX : (encode ops).length + X.length = hllSparseMaxBytes + 3) {hash : BitVec 64}
    (hi : (hllPatLen hash).2 = index) {c : Fin 32} (hcount : (hllPatLen hash).1 = c + 1)
    (hlen : o.bytes.length = 1) (hrun : o.run = 0) (hplace : o.InPlace) (hv : o.value < c + 1) :
    Outcome (FullMerge ops hash)
      ((storeBuf (encode ops ++ X) loc.p (hllSparseValSet (c + 1) 1)).bind fun buf =>
        updatedBuf buf (encode ops).length loc.prev)
      (some (hllSparseUpdated hll (splice (encode ops) loc.p (hllSparseValSet (c + 1) 1))
        loc.prev)) := by
  obtain ⟨hstore, hsplice⟩ := A.store_eq (X := X) (c := c) hlen
  have hsame : (encode (replaced front w [.val c 0] post)).length = (encode ops).length := by
    rw [A.encode_eq, encode_replaced]
    simp only [List.length_append, hlen]
    rfl
  have hr : Replaces o [.val c 0] := by
    refine ⟨by simp, ?_, fun n hn => ?_⟩
    · rw [hrun]
      rfl
    · cases List.mem_singleton.1 hn
  have hchain := hs.apart
  rw [A.ops_eq] at hchain
  have hiff : (w ++ ([] ++ [Opcode.val c 0]) ++ post).IsChain Opcode.Apart ↔ _ :=
    isChain_replaced_iff A.window_le (List.isChain_append.1 hchain).2.1 (Nat.zero_le 1)
      (Nat.zero_le 1) (by simp) (by simp)
  rw [hstore, hsplice, Option.bind_some, ← hsame]
  refine A.outcome hs hc he hr (by rw [hsame]; exact hX) ?_
  rw [A.fullMerge_iff hi hcount]
  have h1 := A.first_le
  have h2 := A.le_last
  rw [hrun, Nat.add_zero] at h2 ⊢
  have hfirst : index = loc.first := by omega
  have hnil : (encode ops).length = hllSparseMaxBytes + 3 ↔ X = [] := by
    rw [← List.length_eq_zero_iff]
    omega
  have hwhole : (w ++ [Opcode.val c 0] ++ post).IsChain Opcode.Apart ↔
      (∀ q, w = [q] → q.Apart (.val c 0)) ∧ ∀ r ∈ post.head?, (Opcode.val c 0).Apart r := by
    simpa using hiff
  rw [hnil, hwhole, not_and_or]
  simp only [hv, hplace, hfirst, Nat.add_zero, true_and]
  push Not
  rfl

/-- **A promotion** only reads the block. -/
theorem SparseAt.promote_outcome (A : SparseAt ops index loc front w o post)
    (hc : (expand ops).length = hllRegisters) (he : hll.encoding = .sparse)
    (hb : hll.registers.bytes = encode ops) {hash : BitVec 64} (hi : (hllPatLen hash).2 = index)
    (hv : o.value < (hllPatLen hash).1) {bad : Prop} (hbad : ¬ bad) :
    Outcome bad (promoteBuf (encode ops ++ X) (encode ops).length hash) (hllSparsePromote hll hash) := by
  have hvalue : ofRegs (expand ops) index = o.value := by
    have h1 := A.first_le
    have h2 := A.le_last
    rw [A.first] at h1 h2
    rw [A.ops_eq, ← List.append_assoc]
    exact ofRegs_expand h1 h2
  have hregs : SparseRegs hll.registers.bytes (ofRegs (expand ops)) :=
    ⟨ops, hb, hc, fun _ _ => rfl⟩
  have hlt : ofRegs (expand ops) (hllEntry hash).1 < (hllEntry hash).2 := by
    change ofRegs (expand ops) (hllPatLen hash).2 < (hllPatLen hash).1
    rw [hi, hvalue]
    exact hv
  obtain ⟨hll', hp, -⟩ := hllSparsePromote_spec he hregs hlt
  obtain ⟨hbuf, hdense⟩ := promoteBuf_eq X he hb hc hp
  exact ⟨fun h => absurd h hbad, fun _ => ⟨_, _, 1, hbuf, hp, .dense hdense⟩⟩

/-- An opcode for a run is split, or the counter is promoted. -/
theorem SparseAt.split_outcome (A : SparseAt ops index loc front w o post) (hs : SettledOps ops)
    (hc : (expand ops).length = hllRegisters) (he : hll.encoding = .sparse)
    (hb : hll.registers.bytes = encode ops)
    (hX : (encode ops).length + X.length = hllSparseMaxBytes + 3) {hash : BitVec 64}
    (hi : (hllPatLen hash).2 = index) (hv : o.value < (hllPatLen hash).1) {seq : List Opcode}
    (hr : Replaces o seq) (hlen : (encode seq).length ≤ o.bytes.length + 3)
    (hlong : (encode seq).length = o.bytes.length + 3 → (w ++ seq ++ post).IsChain Opcode.Apart)
    (hbad : FullMerge ops hash ↔ (encode ops).length = hllSparseMaxBytes + 3 ∧
      (encode seq).length = o.bytes.length ∧ ¬ (w ++ seq ++ post).IsChain Opcode.Apart) :
    Outcome (FullMerge ops hash)
      (if (encode seq).length > o.bytes.length ∧ (encode ops).length > hllSparseMaxBytes then
        promoteBuf (encode ops ++ X) (encode ops).length hash
      else
        (splitBuf (encode ops ++ X) (encode ops).length loc.p o.bytes.length (encode seq)).bind
          fun (buf, len) => updatedBuf buf len loc.prev)
      (if (encode seq).length > o.bytes.length ∧ (encode ops).length > hllSparseMaxBytes then
        hllSparsePromote hll hash
      else some (hllSparseUpdated hll ((encode ops).take loc.p ++ encode seq ++
        (encode ops).drop (loc.p + o.bytes.length)) loc.prev)) := by
  by_cases hroom : (encode seq).length > o.bytes.length ∧ (encode ops).length > hllSparseMaxBytes
  · rw [if_pos hroom, if_pos hroom]
    refine A.promote_outcome hc he hb hi hv fun h => ?_
    have := (hbad.1 h).2.1
    omega
  · rw [if_neg hroom, if_neg hroom]
    have hfit : (encode seq).length ≤ o.bytes.length + X.length := by omega
    obtain ⟨X', hsplit, hl, hnew⟩ := A.split_eq (X := X) hfit
    have hsum : (encode (replaced front w seq post)).length + o.bytes.length =
        (encode ops).length + (encode seq).length := by
      rw [A.encode_eq, encode_replaced]
      simp only [List.length_append]
      omega
    rw [hsplit, hnew, Option.bind_some]
    refine A.outcome hs hc he hr (by omega) ?_
    -- a longer sequence fills the block only if it has parts on both sides
    have hfill : X' = [] ↔ (encode ops).length = hllSparseMaxBytes + 3 ∧
        (encode seq).length = o.bytes.length ∨
          (encode ops).length = hllSparseMaxBytes ∧ (encode seq).length = o.bytes.length + 3 := by
      rw [← List.length_eq_zero_iff]
      omega
    rw [hbad, hfill]
    constructor
    · exact fun h => ⟨Or.inl ⟨h.1, h.2.1⟩, h.2.2⟩
    · rintro ⟨h | h, hno⟩
      · exact ⟨h.1, h.2, hno⟩
      · exact absurd (hlong h.2) hno

/-- The parts of a short run: the sequence is longer than the opcode. -/
theorem SparseAt.short_outcome (A : SparseAt ops index loc front w o post) (hs : SettledOps ops)
    (hc : (expand ops).length = hllRegisters) (he : hll.encoding = .sparse)
    (hb : hll.registers.bytes = encode ops)
    (hX : (encode ops).length + X.length = hllSparseMaxBytes + 3) {hash : BitVec 64}
    (hi : (hllPatLen hash).2 = index) {c : Fin 32} (hcount : (hllPatLen hash).1 = c + 1)
    (hlen : o.bytes.length = 1) (hrun : o.run ≠ 0) (hplace : ¬ o.InPlace) (hv : o.value < c + 1)
    {write : ℕ → List Byte}
    (hw : ∀ len, 0 < len → len ≤ o.run → (write len).length = 1 ∧
      ∃ o' : Opcode, write len = o'.bytes ∧ o'.regs = List.replicate len o.value) :
    Outcome (FullMerge ops hash)
      (if (hllSparseSplit write (c + 1) index loc.first (loc.first + o.run)).length > 1 ∧
          (encode ops).length > hllSparseMaxBytes then
        promoteBuf (encode ops ++ X) (encode ops).length hash
      else
        (splitBuf (encode ops ++ X) (encode ops).length loc.p 1
          (hllSparseSplit write (c + 1) index loc.first (loc.first + o.run))).bind
          fun (buf, len) => updatedBuf buf len loc.prev)
      (if (hllSparseSplit write (c + 1) index loc.first (loc.first + o.run)).length > 1 ∧
          (encode ops).length > hllSparseMaxBytes then
        hllSparsePromote hll hash
      else some (hllSparseUpdated hll ((encode ops).take loc.p ++
        hllSparseSplit write (c + 1) index loc.first (loc.first + o.run) ++
        (encode ops).drop (loc.p + 1)) loc.prev)) := by
  have h1 := A.first_le
  have h2 := A.le_last
  obtain ⟨s₁, s₂, hseq, hp₁, hp₂⟩ := exists_split c h1 h2 fun len h0 hle => (hw len h0 hle).2
  have hl₁ := hp₁.length_encode fun h0 => (hw _ h0 (by omega)).1
  have hl₂ := hp₂.length_encode fun h0 => (hw _ h0 (by omega)).1
  have hlenSeq : (encode (s₁ ++ .val c 0 :: s₂)).length =
      (encode s₁).length + (1 + (encode s₂).length) := by
    rw [encode_append, encode_cons, List.length_append, List.length_append]
    rfl
  have hr : Replaces o (s₁ ++ .val c 0 :: s₂) :=
    hp₁.replaces hp₂ (by omega) fun len _ hle h0 => (hw len h0 hle).1
  rw [hseq, ← hlen]
  have hno : (encode (s₁ ++ .val c 0 :: s₂)).length ≠ o.bytes.length := by
    rw [hlenSeq, hl₁, hl₂, hlen]
    split_ifs <;> omega
  refine A.split_outcome hs hc he hb hX hi (by rw [hcount]; exact hv) hr ?_ ?_ ?_
  · rw [hlenSeq, hl₁, hl₂]
    split_ifs <;> omega
  · intro h
    rw [hlenSeq, hl₁, hl₂] at h
    split_ifs at h <;> omega
  · rw [A.fullMerge_iff hi hcount]
    exact iff_of_false (fun h => hplace h.2.2.1) fun h => hno h.2.1

/-- A long run of zero registers. -/
theorem SparseAt.long_outcome {n : Fin 16384} (A : SparseAt ops index loc front w (.xzero n) post)
    (hs : SettledOps ops) (hc : (expand ops).length = hllRegisters) (he : hll.encoding = .sparse)
    (hb : hll.registers.bytes = encode ops)
    (hX : (encode ops).length + X.length = hllSparseMaxBytes + 3) {hash : BitVec 64}
    (hi : (hllPatLen hash).2 = index) {c : Fin 32} (hcount : (hllPatLen hash).1 = c + 1) :
    Outcome (FullMerge ops hash)
      (if (hllSparseSplit hllSparseZeros (c + 1) index loc.first (loc.first + n)).length > 2 ∧
          (encode ops).length > hllSparseMaxBytes then
        promoteBuf (encode ops ++ X) (encode ops).length hash
      else
        (splitBuf (encode ops ++ X) (encode ops).length loc.p 2
          (hllSparseSplit hllSparseZeros (c + 1) index loc.first (loc.first + n))).bind
          fun (buf, len) => updatedBuf buf len loc.prev)
      (if (hllSparseSplit hllSparseZeros (c + 1) index loc.first (loc.first + n)).length > 2 ∧
          (encode ops).length > hllSparseMaxBytes then
        hllSparsePromote hll hash
      else some (hllSparseUpdated hll ((encode ops).take loc.p ++
        hllSparseSplit hllSparseZeros (c + 1) index loc.first (loc.first + n) ++
        (encode ops).drop (loc.p + 2)) loc.prev)) := by
  have h1 := A.first_le
  have h2 : index ≤ loc.first + n := A.le_last
  have hn : (n : ℕ) < 16384 := n.isLt
  have hlong : 64 ≤ (n : ℕ) := hs.xzero n (A.ops_eq ▸ by simp)
  obtain ⟨s₁, s₂, hseq, hp₁, hp₂⟩ := exists_split c h1 h2 fun len h0 hle =>
    hllSparseZeros_bytes h0 (by omega)
  have hl₁ := hp₁.length_encode_zeros
  have hl₂ := hp₂.length_encode_zeros
  have hlenSeq : (encode (s₁ ++ .val c 0 :: s₂)).length =
      (encode s₁).length + (1 + (encode s₂).length) := by
    rw [encode_append, encode_cons, List.length_append, List.length_append]
    rfl
  have hr : Replaces (.xzero n) (s₁ ++ .val c 0 :: s₂) := by
    refine hp₁.replaces hp₂ ?_ fun len hle _ _ => ?_
    · change index - loc.first + (loc.first + n - index) = n
      omega
    · rw [hllSparseZeros, hllSparseZeroMaxLen, if_neg (by omega)]
      rfl
  have hchain := hs.apart
  rw [A.ops_eq] at hchain
  have hiff := isChain_replaced_iff (c := c) A.window_le (List.isChain_append.1 hchain).2.1
    hp₁.length_le hp₂.length_le hp₁.value hp₂.value
  rw [hp₁.eq_nil_iff, hp₂.eq_nil_iff] at hiff
  rw [hseq]
  refine A.split_outcome hs hc he hb hX hi (by rw [hcount]; exact Nat.succ_pos _) hr ?_ ?_ ?_
  · rw [hlenSeq, hl₁, hl₂]
    change _ ≤ 2 + 3
    split_ifs <;> omega
  · -- both parts take two bytes, so there are two
    intro h
    rw [hlenSeq, hl₁, hl₂] at h
    change _ = 2 + 3 at h
    refine hiff.2 ⟨fun h0 => ?_, fun h0 => ?_⟩
    · rw [if_pos h0] at h
      split_ifs at h <;> omega
    · rw [if_pos h0] at h
      split_ifs at h <;> omega
  · -- the sequence has the length of the opcode if there is one part, of one byte
    have hsame : (encode (s₁ ++ .val c 0 :: s₂)).length = (Opcode.xzero n).bytes.length ↔
        (n : ℕ) ≤ 64 ∧ (index - loc.first = 0 ∨ loc.first + n - index = 0) := by
      rw [hlenSeq, hl₁, hl₂]
      change _ = 2 ↔ _
      split_ifs <;> omega
    have hplace : (Opcode.xzero n).InPlace ↔ (n : ℕ) ≤ 64 := Iff.rfl
    have hrun : (Opcode.xzero n).run = n := rfl
    have hv : (Opcode.xzero n).value < c + 1 := Nat.succ_pos _
    rw [A.fullMerge_iff hi hcount, hsame, hiff, not_and_or, hplace, hrun]
    have hi₁ : index = loc.first ↔ index - loc.first = 0 := by omega
    have hi₂ : index = loc.first + n ↔ loc.first + n - index = 0 := by omega
    rw [hi₁, hi₂]
    push Not
    constructor
    · rintro ⟨h, -, hle, ⟨h0, hq⟩ | ⟨h0, hq⟩⟩
      · exact ⟨h, ⟨hle, Or.inl h0⟩, Or.inl ⟨h0, hq⟩⟩
      · exact ⟨h, ⟨hle, Or.inr h0⟩, Or.inr ⟨h0, hq⟩⟩
    · rintro ⟨h, ⟨hle, -⟩, ⟨h0, hq⟩ | ⟨h0, hq⟩⟩
      · exact ⟨h, hv, hle, Or.inl ⟨h0, hq⟩⟩
      · exact ⟨h, hv, hle, Or.inr ⟨h0, hq⟩⟩

/-- Nothing is written when the register has the value already. -/
theorem Outcome.unchanged {s : HllBuf} {hll : Hll} (h : BufOf s hll) {bad : Prop} (hbad : ¬ bad) :
    Outcome bad (some (s, 0)) (some (hll, 0)) :=
  ⟨fun h' => absurd h' hbad, fun _ => ⟨s, hll, 0, rfl, rfl, h⟩⟩

/-- **An addition to a sparse counter** accesses a byte outside of its block
    exactly if it merges in a full one. -/
theorem hllSparseAddBuf_spec (hs : SettledOps ops) (hc : (expand ops).length = hllRegisters)
    (he : hll.encoding = .sparse) (hb : hll.registers.bytes = encode ops)
    (hX : (encode ops).length + X.length = hllSparseMaxBytes + 3) (hash : BitVec 64) :
    Outcome (FullMerge ops hash) (hllSparseAddBuf (encode ops ++ X) (encode ops).length hash)
      (hllSparseAdd hll hash) := by
  obtain ⟨count, index, hpat⟩ : ∃ count index, hllPatLen hash = (count, index) := ⟨_, _, rfl⟩
  have hi : (hllPatLen hash).2 = index := by rw [hpat]
  have hi' : index < hllRegisters := hi ▸ hllPatLen_index_lt hash
  have hpos : 0 < count := by
    have := hllPatLen_pos hash
    rwa [hpat] at this
  obtain ⟨loc, front, w, o, post, A⟩ := exists_sparseAt (hi'.trans_eq hc.symm)
  rw [hllSparseAddBuf, hllSparseAdd, hpat]
  dsimp only
  by_cases hbig : count > hllSparseValMaxValue
  · rw [if_pos hbig, if_pos hbig]
    refine A.promote_outcome hc he hb hi ?_ fun h => ?_
    · rw [hpat]
      exact o.value_le.trans_lt hbig
    · rw [FullMerge, hpat] at h
      exact absurd h.2.1 (not_le.2 hbig)
  have hcount : ∃ c : Fin 32, count = c + 1 := by
    have hle : count ≤ 32 := not_lt.1 hbig
    exact ⟨⟨count - 1, by omega⟩, (Nat.sub_add_cancel hpos).symm⟩
  obtain ⟨c, rfl⟩ := hcount
  have hcnt : (hllPatLen hash).1 = c + 1 := by rw [hpat]
  have hlen : (encode ops).length ≠ 0 := by
    have hpos := o.bytes_length_pos
    rw [A.encode_eq]
    simp only [List.length_append]
    omega
  have hloc := locateBuf_eq X (P := []) (n := (encode ops).length) le_rfl A.locate
  rw [List.nil_append, List.length_nil, Nat.zero_add] at hloc
  have hlast : loc.first + (o.run + 1) - 1 = loc.first + o.run := rfl
  rw [if_neg hbig, if_neg hbig, if_neg hlen, hb,
    if_neg (fun h => hlen (List.length_eq_zero_iff.2 h)), hloc, A.locate]
  simp only [Option.bind_eq_bind, Option.bind_some, A.span, hlast]
  cases o with
  | zero n =>
    obtain ⟨b, hbytes, h1, h2, h3, -⟩ := zero_bytes n
    have hone : (Opcode.zero n).bytes.length = 1 := by rw [hbytes]; rfl
    obtain ⟨hread, hget⟩ := A.head hbytes X
    rw [hread, hget]
    simp only [Option.bind_some, h1, h2, h3, Bool.false_eq_true, false_and, true_and, if_false,
      true_or, if_true, Nat.add_eq_right]
    by_cases hrun : (Opcode.zero n).run = 0
    · rw [if_pos hrun, if_pos hrun]
      exact A.store_outcome hs hc he hX hi hcnt hone hrun hrun (Nat.succ_pos _)
    · rw [if_neg hrun, if_neg hrun]
      refine A.short_outcome hs hc he hb hX hi hcnt hone hrun hrun (Nat.succ_pos _)
        fun len h0 hle => ⟨?_, hllSparseZeros_bytes h0 ?_⟩
      · have hn : (Opcode.zero n).run ≤ 63 := Nat.le_of_lt_succ n.isLt
        rw [hllSparseZeros, hllSparseZeroMaxLen, if_neg (by omega)]
        rfl
      · have := (Opcode.zero n).run_lt
        omega
  | xzero n =>
    obtain ⟨b, b1, hbytes, h1, h2, h3, -⟩ := xzero_bytes n
    obtain ⟨hread, hget⟩ := A.head hbytes X
    rw [hread, hget]
    simp only [Option.bind_some, h1, h2, h3, Bool.false_eq_true, false_and, if_false, or_true,
      if_true]
    exact A.long_outcome hs hc he hb hX hi hcnt
  | val v n =>
    obtain ⟨b, hbytes, h1, h2, h3, h4, h5⟩ := val_bytes v n
    have hone : (Opcode.val v n).bytes.length = 1 := by rw [hbytes]; rfl
    obtain ⟨hread, hget⟩ := A.head hbytes X
    rw [hread, hget]
    simp only [Option.bind_some, h1, h2, h3, h4, Bool.false_eq_true, true_and, false_and, if_false,
      or_self, Nat.add_eq_right]
    by_cases hge : (v : ℕ) + 1 ≥ c + 1
    · rw [if_pos hge, if_pos hge]
      refine Outcome.unchanged (.sparse he hb hs hc hX) fun h => ?_
      exact absurd ((A.fullMerge_iff hi hcnt).1 h).2.1 (not_lt.2 hge)
    · have hv : (Opcode.val v n).value < c + 1 := not_le.1 hge
      rw [if_neg hge, if_neg hge]
      by_cases hrun : (Opcode.val v n).run = 0
      · rw [if_pos hrun, if_pos hrun]
        exact A.store_outcome hs hc he hX hi hcnt hone hrun hrun hv
      · rw [if_neg hrun, if_neg hrun]
        refine A.short_outcome hs hc he hb hX hi hcnt hone hrun hrun hv fun len h0 hle => ⟨rfl, ?_⟩
        have hn : (Opcode.val v n).run ≤ 3 := Nat.le_of_lt_succ n.isLt
        exact hllSparseValSet_bytes _ _ (Nat.succ_pos _) v.isLt h0 (by omega)

end

/-! ## Runs -/

/-- A merge in a full block, as the block shows it. -/
def HllBuf.FullMerge : HllBuf → BitVec 64 → Prop
  | .sparse buf len, hash => ∃ ops, buf.take len = encode ops ∧ Honas.FullMerge ops hash
  | .dense _, _ => False

theorem Hll.bufOf_dense (hll : Hll) (he : hll.encoding = .dense) :
    BufOf (.dense hll.registers.bytes) hll := .dense he

/-- The cached cardinality is not in the block. -/
theorem BufOf.card {s : HllBuf} {hll : Hll} (h : BufOf s hll) (card : BitVec 64) :
    BufOf s { hll with card := card } := by
  cases h with
  | sparse he hb hs hc hX => exact .sparse he hb hs hc hX
  | dense he => exact Hll.bufOf_dense { hll with card := card } he

/-- **A step**: there is an access outside of the block exactly if the hash merges
    opcodes in a full one. -/
theorem hllAddBuf_spec {s : HllBuf} {hll : Hll} (h : BufOf s hll) (hash : BitVec 64) :
    Outcome (s.FullMerge hash) (hllAddBuf s hash) (hllAdd hll hash) := by
  cases h with
  | @sparse _ ops X he hb hs hc hX =>
    have hfull : (HllBuf.sparse (encode ops ++ X) (encode ops).length).FullMerge hash ↔
        FullMerge ops hash := by
      rw [HllBuf.FullMerge, List.take_left]
      constructor
      · rintro ⟨ops', heq, h⟩
        rwa [encode_injective heq]
      · exact fun h => ⟨ops, rfl, h⟩
    obtain ⟨hbad, hgood⟩ := hllSparseAddBuf_spec hs hc he hb hX hash
    rw [Outcome, hfull]
    refine ⟨hbad, fun hno => ?_⟩
    obtain ⟨s', hll', updated, hbuf, hadd, hof⟩ := hgood hno
    obtain ⟨card, hcard⟩ := exists_card hll' updated
    refine ⟨s', { hll' with card := card }, updated, hbuf, ?_, hof.card card⟩
    rw [hllAdd, he]
    simp only [hadd, Option.bind_eq_bind, Option.bind_some]
    exact hcard
  | dense he =>
    obtain ⟨card, hadd⟩ := hllAdd_dense he hash
    exact ⟨False.elim, fun _ => ⟨_, _, _, rfl, hadd, Hll.bufOf_dense { hll with
      card := card, registers := { hll.registers with
        bytes := (hllDenseAdd hll.registers.bytes hash).1 } } he⟩⟩

/-- The block of a new counter. -/
theorem hllInitBuf_spec : BufOf hllInitBuf hllInit := by
  have hops : hllSparseXzeroSet hllRegisters = encode [.xzero ⟨16383, by decide⟩] := rfl
  have hbuf : hllInitBuf = .sparse (encode [.xzero ⟨16383, by decide⟩] ++
      List.replicate (hllSparseMaxBytes + 1) 0) (encode [.xzero ⟨16383, by decide⟩]).length := rfl
  rw [hbuf]
  refine .sparse rfl hops ⟨List.isChain_singleton _, fun n hn => ?_⟩ ?_ ?_
  · obtain rfl := Opcode.xzero.inj (List.mem_singleton.1 hn)
    decide
  · rw [expand_cons, expand_nil, List.append_nil, Opcode.length_regs]
    rfl
  · rw [List.length_replicate]
    rfl

/-- The block after an addition. -/
def hllBufStep (s : HllBuf) (hash : BitVec 64) : Option HllBuf := (hllAddBuf s hash).map Prod.fst

/-- The block after a sequence of additions to a new counter; `none` is an access
    outside of it. -/
def hllBufRun (hashes : List (BitVec 64)) : Option HllBuf := hashes.foldlM hllBufStep hllInitBuf

/-- A step, in either case. -/
theorem hllBufStep_spec {s : HllBuf} {hll : Hll} (h : BufOf s hll) (hash : BitVec 64) :
    (s.FullMerge hash → hllBufStep s hash = none) ∧
      (¬ s.FullMerge hash → ∃ s' hll', hllBufStep s hash = some s' ∧
        (hllAdd hll hash).map Prod.fst = some hll' ∧ BufOf s' hll') := by
  obtain ⟨hbad, hgood⟩ := hllAddBuf_spec h hash
  refine ⟨fun hf => by rw [hllBufStep, hbad hf]; rfl, fun hf => ?_⟩
  obtain ⟨s', hll', updated, hbuf, hadd, hof⟩ := hgood hf
  exact ⟨s', hll', by rw [hllBufStep, hbuf]; rfl, by rw [hadd]; rfl, hof⟩

/-- **The block refines the counter**: while all accesses are inside of it, it
    holds the registers that `hllAdd` computes. -/
theorem hllBufRun_refines (hashes : List (BitVec 64)) {s : HllBuf} (h : hllBufRun hashes = some s) :
    ∃ hll, hllAddAll hllInit hashes = some hll ∧ BufOf s hll := by
  refine Run.rel_of_run (R := fun pre s => ∃ hll, hllAddAll hllInit pre = some hll ∧ BufOf s hll)
    ?_ hashes (h := []) ⟨hllInit, rfl, hllInitBuf_spec⟩ h
  · rintro pre s hash s' ⟨hll, hrun, hof⟩ hstep
    obtain ⟨hbad, hgood⟩ := hllBufStep_spec hof hash
    by_cases hf : s.FullMerge hash
    · rw [hbad hf] at hstep
      cases hstep
    · obtain ⟨t, hll', ht, hadd, hof'⟩ := hgood hf
      obtain rfl := Option.some.inj (hstep.symm.trans ht)
      refine ⟨hll', ?_, hof'⟩
      rw [hllAddAll, List.foldlM_append]
      rw [hllAddAll] at hrun
      rw [hrun]
      change ((hllAdd hll hash).map Prod.fst >>= pure) = some hll'
      rw [bind_pure, hadd]

/-- **All accesses are inside of the block**, and the length is at most its size,
    exactly in the runs without a merge in a full block. -/
theorem sparseBuffer_bounds_iff (hashes : List (BitVec 64)) :
    (∀ pre, pre <+: hashes → ∃ s, hllBufRun pre = some s ∧
      ∀ buf len, s = .sparse buf len → buf.length = hllSparseMaxBytes + 3 ∧
        len ≤ hllSparseMaxBytes + 3) ↔
      ∀ pre hash, pre ++ [hash] <+: hashes → ∀ s, hllBufRun pre = some s → ¬ s.FullMerge hash := by
  refine Run.safe_iff (I := fun s => ∃ hll, BufOf s hll) ?_ ?_ ?_ ⟨hllInit, hllInitBuf_spec⟩
  · rintro s ⟨hll, hof⟩ buf len rfl
    cases hof with
    | sparse he hb hs hc hX =>
      rw [List.length_append]
      omega
  · rintro s hash ⟨hll, hof⟩ hf
    obtain ⟨s', hll', hstep, -, hof'⟩ := (hllBufStep_spec hof hash).2 hf
    exact ⟨s', hstep, hll', hof'⟩
  · rintro s hash s' ⟨hll, hof⟩ hf hstep
    rw [(hllBufStep_spec hof hash).1 (not_not.1 hf)] at hstep
    cases hstep

/-- Hashes that split the registers up to a length of 259 bytes, with the opcodes
    for the registers 150 and 151 next to each other; the last one gives the
    register 150 the value of the register 151. -/
def overrunHashes : List (BitVec 64) :=
  (List.range 84).map (fun k => BitVec.ofNat 64 (150 * (84 - k) + 2 ^ 14)) ++
    [BitVec.ofNat 64 (151 + 2 ^ 15), BitVec.ofNat 64 (152 + 2 ^ 16),
      BitVec.ofNat 64 (226 + 2 ^ 14), BitVec.ofNat 64 (150 + 2 ^ 15)]

/-- The merge reads the byte behind the block. -/
theorem sparseBuffer_overrun : ¬ ∀ pre, pre <+: overrunHashes → ∃ s, hllBufRun pre = some s ∧
    ∀ buf len, s = .sparse buf len → buf.length = hllSparseMaxBytes + 3 ∧
      len ≤ hllSparseMaxBytes + 3 := by
  intro h
  obtain ⟨s, hs, -⟩ := h overrunHashes (List.prefix_refl _)
  have hnone : (hllBufRun overrunHashes).isNone := by decide +kernel
  rw [hs] at hnone
  cases hnone

end Honas

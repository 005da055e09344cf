/-
  The hash table of the subnets (`include/uthash.h`).

  The elements of a table are linked twice: all of them in the order in which they were
  added, and those of a bucket in the chain of the bucket.  The macros follow and assign
  these links; `none` stands for an access through `NULL` or to memory that is not
  allocated, to a bucket that does not exist, or a division by zero.  The macros end the
  program where there is no memory for a table or for its buckets (`uthash_fatal`): `.error`
  has the number of bytes that were refused.

  A pointer to a hash handle is the pointer to its element.  The number of buckets wraps
  around as in the source.  The numbers of elements, of the table and of each bucket, do not:
  they are those of the source for fewer than 2^32 elements.
-/
import Honas.Lib.LinkedChain
import Honas.State

namespace Honas

open Bits

/-! ## Elements -/

/-- An element: its `UT_hash_handle`, with the key that it points to, and its other data. -/
structure Element (ι α : Type) where
  prev : Option ι
  next : Option ι
  hhPrev : Option ι
  hhNext : Option ι
  key : List Byte
  hashv : BitVec 32
  value : α

/-- The elements that are allocated. -/
abbrev Elements (ι α : Type) := ι → Option (Element ι α)

variable {ι α : Type} [DecidableEq ι]

/-- An assignment to the element that a pointer points to, unless it is `NULL`. -/
def Elements.assign (m : Elements ι α) (pointer : Option ι) (f : Element ι α → Element ι α) :
    Option (Elements ι α) :=
  match pointer with
  | none => some m
  | some x => (m x).map fun e => Function.update m x (some (f e))

/-- The element behind the one that a pointer points to, unless it is `NULL`. -/
def Elements.nextOf (m : Elements ι α) (pointer : Option ι) : Option (Option ι) :=
  match pointer with
  | none => some none
  | some x => (m x).map Element.next

/-! ## Tables -/

/-- `UT_hash_bucket`. -/
structure UtHashBucket (ι : Type) where
  hhHead : Option ι
  count : ℕ
  expandMult : ℕ

/-- A bucket after `memset`. -/
def UtHashBucket.zero : UtHashBucket ι := ⟨none, 0, 0⟩

/-- `UT_hash_table`. -/
structure UtHashTable (ι : Type) where
  buckets : List (UtHashBucket ι)
  numBuckets : ℕ
  log2NumBuckets : ℕ
  numItems : ℕ
  tail : ι
  idealChainMaxlen : ℕ
  nonidealItems : ℕ
  ineffExpands : ℕ
  noexpand : Bool

/-- The head of a table that is not empty, with the table, to which all elements point. -/
structure UtHash (ι : Type) where
  head : ι
  tbl : UtHashTable ι

/-- `HASH_INITIAL_NUM_BUCKETS_LOG2`. -/
def hashInitialNumBucketsLog2 : ℕ := 5

/-- `HASH_INITIAL_NUM_BUCKETS`. -/
def hashInitialNumBuckets : ℕ := 32

/-- `HASH_BKT_CAPACITY_THRESH`. -/
def hashBktCapacityThresh : ℕ := 10

/-- The sizes of `UT_hash_table` and of `UT_hash_bucket`. -/
def sizeofUtHashTable : ℕ := 64
def sizeofUtHashBucket : ℕ := 16

/-- `uthash_malloc`: whether so many bytes are granted. -/
abbrev UthashMalloc (ι α : Type) := Elements ι α → ℕ → Bool

/-- `HASH_MAKE_TABLE`. -/
def hashMakeTable (uthashMalloc : UthashMalloc ι α) (m : Elements ι α) (head : ι) :
    Except ℕ (UtHash ι) :=
  if !uthashMalloc m sizeofUtHashTable then .error sizeofUtHashTable
  else if !uthashMalloc m (hashInitialNumBuckets * sizeofUtHashBucket) then
    .error (hashInitialNumBuckets * sizeofUtHashBucket)
  else .ok
    { head := head
      tbl :=
        { buckets := List.replicate hashInitialNumBuckets .zero
          numBuckets := hashInitialNumBuckets
          log2NumBuckets := hashInitialNumBucketsLog2
          numItems := 0
          tail := head
          idealChainMaxlen := 0
          nonidealItems := 0
          ineffExpands := 0
          noexpand := false } }

/-- The number before an unsigned one. -/
def predU32 (n : ℕ) : ℕ := u32 (n + (2 ^ 32 - 1))

/-- `HASH_TO_BKT`. -/
def hashToBkt (hashv : BitVec 32) (numBkts : ℕ) : ℕ := hashv.toNat &&& predU32 numBkts

/-- `HASH_JEN_MIX`. -/
def hashJenMix (a b c : BitVec 32) : BitVec 32 × BitVec 32 × BitVec 32 :=
  let a := (a - b - c) ^^^ (c >>> 13)
  let b := (b - c - a) ^^^ (a <<< 8)
  let c := (c - a - b) ^^^ (b >>> 13)
  let a := (a - b - c) ^^^ (c >>> 12)
  let b := (b - c - a) ^^^ (a <<< 16)
  let c := (c - a - b) ^^^ (b >>> 5)
  let a := (a - b - c) ^^^ (c >>> 3)
  let b := (b - c - a) ^^^ (a <<< 10)
  let c := (c - a - b) ^^^ (b >>> 15)
  (a, b, c)

/-- Four characters of a key, which are signed, as a number. -/
def hashJenWord (k₀ k₁ k₂ k₃ : Byte) : BitVec 32 :=
  k₀.signExtend 32 + k₁.signExtend 32 <<< 8 + k₂.signExtend 32 <<< 16 + k₃.signExtend 32 <<< 24

/-- The loop of `HASH_JEN`, and the rest of the key. -/
def hashJenLoop (i j hashv : BitVec 32) :
    List Byte → (BitVec 32 × BitVec 32 × BitVec 32) × List Byte
  | k₀ :: k₁ :: k₂ :: k₃ :: k₄ :: k₅ :: k₆ :: k₇ :: k₈ :: k₉ :: k₁₀ :: k₁₁ :: rest =>
    let (i, j, hashv) := hashJenMix (i + hashJenWord k₀ k₁ k₂ k₃) (j + hashJenWord k₄ k₅ k₆ k₇)
      (hashv + hashJenWord k₈ k₉ k₁₀ k₁₁)
    hashJenLoop i j hashv rest
  | rest => ((i, j, hashv), rest)

/-- `HASH_JEN`, the default of `HASH_FCN`. -/
def hashJen (key : List Byte) : BitVec 32 :=
  let ((i, j, hashv), rest) := hashJenLoop 0x9e3779b9 0x9e3779b9 0xfeedbeef key
  let k n := rest.getD n 0
  let hashv := hashv + BitVec.ofNat 32 key.length + hashJenWord 0 (k 8) (k 9) (k 10)
  let j := j + hashJenWord (k 4) (k 5) (k 6) (k 7)
  let i := i + hashJenWord (k 0) (k 1) (k 2) (k 3)
  (hashJenMix i j hashv).2.2

/-! ## Finding -/

/-- `HASH_FIND_IN_BKT`, for at most so many elements of the chain. -/
def hashFindInBkt (m : Elements ι α) (key : List Byte) : ℕ → Option ι → Option (Option ι)
  | _, none => some none
  | 0, some _ => none
  | fuel + 1, some out => do
    let e ← m out
    if e.key.length = key.length ∧ e.key = key then some (some out)
    else hashFindInBkt m key fuel e.hhNext

/-- `HASH_FIND`, for a hash function. -/
def hashFind (hashFcn : List Byte → BitVec 32) (m : Elements ι α) (hash : Option (UtHash ι))
    (key : List Byte) : Option (Option ι) :=
  match hash with
  | none => some none
  | some h => do
    let bucket ← h.tbl.buckets[hashToBkt (hashFcn key) h.tbl.numBuckets]?
    hashFindInBkt m key bucket.count bucket.hhHead

/-! ## Adding -/

/-- An element becomes the first one of a chain. -/
def hashPush (m : Elements ι α) (hhHead : Option ι) (x : ι) : Option (Elements ι α) := do
  let m ← m.assign (some x) fun e => { e with hhPrev := none, hhNext := hhHead }
  m.assign hhHead fun e => { e with hhPrev := some x }

/-- What `HASH_EXPAND_BUCKETS` works on: the elements, the new buckets, and `nonideal_items`. -/
structure Expansion (ι α : Type) where
  m : Elements ι α
  newBuckets : List (UtHashBucket ι)
  nonidealItems : ℕ

/-- An element is moved to its new bucket; the result has the next one of the old chain. -/
def Expansion.move (tbl : UtHashTable ι) (x : ι) (ex : Expansion ι α) :
    Option (Option ι × Expansion ι α) := do
  let e ← ex.m x
  let bkt := hashToBkt e.hashv (u32 (tbl.numBuckets * 2))
  let newbkt ← ex.newBuckets[bkt]?
  let count := newbkt.count + 1
  let m ← hashPush ex.m newbkt.hhHead x
  if count > tbl.idealChainMaxlen then
    if tbl.idealChainMaxlen = 0 then none
    else some (e.hhNext, ⟨m, ex.newBuckets.set bkt ⟨some x, count, count / tbl.idealChainMaxlen⟩,
      ex.nonidealItems + 1⟩)
  else some (e.hhNext, ⟨m, ex.newBuckets.set bkt ⟨some x, count, newbkt.expandMult⟩,
    ex.nonidealItems⟩)

/-- The elements of a chain are moved, at most so many. -/
def Expansion.moveChain (tbl : UtHashTable ι) :
    ℕ → Option ι → Expansion ι α → Option (Expansion ι α)
  | _, none, ex => some ex
  | 0, some _, _ => none
  | fuel + 1, some x, ex => do
    let (hhNxt, ex) ← ex.move tbl x
    Expansion.moveChain tbl fuel hhNxt ex

/-- The elements of all chains are moved. -/
def Expansion.moveAll (tbl : UtHashTable ι) (ex : Expansion ι α) : Option (Expansion ι α) :=
  (List.range tbl.numBuckets).foldlM (fun ex i => do
    let bucket ← tbl.buckets[i]?
    ex.moveChain tbl bucket.count bucket.hhHead) ex

/-- `ideal_chain_maxlen` for twice as many buckets. -/
def UtHashTable.idealLength (tbl : UtHashTable ι) : ℕ :=
  (tbl.numItems >>> (tbl.log2NumBuckets + 1)) +
    if tbl.numItems &&& predU32 (u32 (tbl.numBuckets * 2)) = 0 then 0 else 1

/-- `HASH_EXPAND_BUCKETS`. -/
def hashExpandBuckets (uthashMalloc : UthashMalloc ι α) (m : Elements ι α) (tbl : UtHashTable ι) :
    Option (Except ℕ (Elements ι α × UtHashTable ι)) :=
  let newNumBuckets := u32 (2 * tbl.numBuckets)
  if !uthashMalloc m (newNumBuckets * sizeofUtHashBucket) then
    some (.error (newNumBuckets * sizeofUtHashBucket))
  else do
    let tbl := { tbl with idealChainMaxlen := tbl.idealLength }
    let ex ← Expansion.moveAll tbl ⟨m, List.replicate newNumBuckets .zero, 0⟩
    let ineffExpands := if ex.nonidealItems > tbl.numItems >>> 1 then tbl.ineffExpands + 1 else 0
    some (.ok (ex.m, { tbl with
      buckets := ex.newBuckets
      numBuckets := u32 (tbl.numBuckets * 2)
      log2NumBuckets := tbl.log2NumBuckets + 1
      nonidealItems := ex.nonidealItems
      ineffExpands := ineffExpands
      noexpand := tbl.noexpand || ineffExpands > 1 }))

/-- `HASH_ADD_TO_BKT`. -/
def hashAddToBkt (uthashMalloc : UthashMalloc ι α) (m : Elements ι α) (tbl : UtHashTable ι)
    (bkt : ℕ) (x : ι) : Option (Except ℕ (Elements ι α × UtHashTable ι)) := do
  let head ← tbl.buckets[bkt]?
  let m ← hashPush m head.hhHead x
  let tbl := { tbl with
    buckets := tbl.buckets.set bkt { head with hhHead := some x, count := head.count + 1 } }
  if head.count + 1 ≥ (head.expandMult + 1) * hashBktCapacityThresh ∧ tbl.noexpand = false then
    hashExpandBuckets uthashMalloc m tbl
  else some (.ok (m, tbl))

/-- The first part of `HASH_ADD_KEYPTR`: the element becomes the last one in the order of
    the additions. -/
def hashAppend (uthashMalloc : UthashMalloc ι α) (m : Elements ι α) (hash : Option (UtHash ι))
    (add : ι) : Option (Except ℕ (Elements ι α × UtHash ι)) := do
  let m ← m.assign (some add) fun e => { e with next := none }
  match hash with
  | none =>
    let m ← m.assign (some add) fun e => { e with prev := none }
    some ((hashMakeTable uthashMalloc m add).map fun h => (m, h))
  | some h =>
    let m ← m.assign (some h.tbl.tail) fun e => { e with next := some add }
    let m ← m.assign (some add) fun e => { e with prev := some h.tbl.tail }
    some (.ok (m, { h with tbl := { h.tbl with tail := add } }))

/-- The rest of `HASH_ADD_KEYPTR`. -/
def hashAddKeyptr (uthashMalloc : UthashMalloc ι α) (hashFcn : List Byte → BitVec 32)
    (m : Elements ι α) (h : UtHash ι) (add : ι) :
    Option (Except ℕ (Elements ι α × UtHash ι)) := do
  let tbl := { h.tbl with numItems := h.tbl.numItems + 1 }
  let e ← m add
  let hashv := hashFcn e.key
  let m ← m.assign (some add) fun e => { e with hashv := hashv }
  let added ← hashAddToBkt uthashMalloc m tbl (hashToBkt hashv tbl.numBuckets) add
  some (added.map fun r => (r.1, { h with tbl := r.2 }))

/-- `HASH_ADD` of an element, which has its key. -/
def hashAdd (uthashMalloc : UthashMalloc ι α) (hashFcn : List Byte → BitVec 32)
    (m : Elements ι α) (hash : Option (UtHash ι)) (add : ι) :
    Option (Except ℕ (Elements ι α × UtHash ι)) := do
  match ← hashAppend uthashMalloc m hash add with
  | .error size => some (.error size)
  | .ok (m, h) => hashAddKeyptr uthashMalloc hashFcn m h add

/-! ## Deleting -/

/-- `HASH_DEL_IN_BKT`. -/
def hashDelInBkt (m : Elements ι α) (head : UtHashBucket ι) (hhDel : ι) :
    Option (Elements ι α × UtHashBucket ι) := do
  let e ← m hhDel
  let m ← m.assign e.hhPrev fun p => { p with hhNext := e.hhNext }
  let m ← m.assign e.hhNext fun n => { n with hhPrev := e.hhPrev }
  some (m, { head with
    count := head.count - 1
    hhHead := if head.hhHead = some hhDel then e.hhNext else head.hhHead })

/-- `HASH_DELETE`. -/
def hashDelete (m : Elements ι α) (hash : Option (UtHash ι)) (del : ι) :
    Option (Elements ι α × Option (UtHash ι)) := do
  let e ← m del
  let h ← hash
  if e.prev = none ∧ e.next = none then some (m, none)
  else
    let tail ← (if del = h.tbl.tail then e.prev else some h.tbl.tail)
    let m ← m.assign e.prev fun p => { p with next := e.next }
    let head ← (if e.prev = none then e.next else some h.head)
    let m ← m.assign e.next fun n => { n with prev := e.prev }
    let bkt := hashToBkt e.hashv h.tbl.numBuckets
    let bucket ← h.tbl.buckets[bkt]?
    let (m, bucket) ← hashDelInBkt m bucket del
    some (m, some ⟨head, { h.tbl with
      tail := tail
      buckets := h.tbl.buckets.set bkt bucket
      numItems := h.tbl.numItems - 1 }⟩)

/-- `free` of an element. -/
def Elements.free (m : Elements ι α) (x : ι) : Option (Elements ι α) :=
  (m x).map fun _ => Function.update m x none

/-- `HASH_ITER` over at most so many elements, each of which is deleted and freed. -/
def hashFreeAll : ℕ → Elements ι α → Option (UtHash ι) → (el tmp : Option ι) →
    Option (Elements ι α × Option (UtHash ι))
  | _, m, hash, none, _ => some (m, hash)
  | 0, _, _, some _, _ => none
  | fuel + 1, m, hash, some el, tmp => do
    let (m, hash) ← hashDelete m hash el
    let m ← m.free el
    let next ← m.nextOf tmp
    hashFreeAll fuel m hash tmp next

end Honas

/-
  The HyperLogLog counters (`include/hyperloglog.h`, `src/hyperloglog.c`).

  A counter has 16384 registers of 6 bits.  In the dense encoding they are
  packed into 12289 bytes, least significant bit first; in the sparse encoding
  they are a run-length sequence of opcodes `ZERO` (`00xxxxxx`), `XZERO`
  (`01xxxxxx yyyyyyyy`) and `VAL` (`1vvvvvxx`).  `hllSparseAdd` updates the
  opcodes in place: it splits the opcode that covers the register, merges
  equal neighbours, and converts the counter to the dense encoding when a
  value or the size gets too large.

  This file holds the definitions, in the order of the source.  A function
  that asserts something, or that would read past the opcodes, returns `none`
  there.  The floating-point estimate of `hllCount` is a parameter.
-/
import Honas.ByteSlice

namespace Honas

open Bits

/-- `HLL_P`, `HLL_REGISTERS`, `HLL_BITS`, `HLL_REGISTER_MAX`, `HLL_DENSE_SIZE`. -/
def hllP : ℕ := 14
def hllRegisters : ℕ := 16384
def hllBits : ℕ := 6
def hllRegisterMax : ℕ := 63
def hllDenseSize : ℕ := (hllRegisters * hllBits + 7) / 8 + 1

/-- `HLL_SPARSE_MAX_BYTES` and the limits of the opcodes. -/
def hllSparseMaxBytes : ℕ := 256
def hllSparseValMaxValue : ℕ := 32
def hllSparseValMaxLen : ℕ := 4
def hllSparseZeroMaxLen : ℕ := 64
def hllSparseXzeroMaxLen : ℕ := 16384

/-- `HLL_DENSE` and `HLL_SPARSE`. -/
inductive HllEncoding where
  | dense
  | sparse
deriving DecidableEq

/-- `hll`. -/
structure Hll where
  card : BitVec 64
  encoding : HllEncoding
  registers : ByteSlice
  registersOwned : Bool

/-- `HLL_INVALIDATE_CACHE`. -/
def Hll.invalidateCache (hll : Hll) : Hll := { hll with card := hll.card ||| 1#64 <<< 63 }

/-- `HLL_VALID_CACHE`. -/
def Hll.validCache (hll : Hll) : Bool := hll.card >>> 63 == 0#64

/-! ## Dense registers -/

/-- `HLL_DENSE_GET_REGISTER`. -/
def hllDenseGetRegister (p : List Byte) (regnum : ℕ) : ℕ :=
  let byte := regnum * hllBits / 8
  let fb := regnum * hllBits % 8
  let fb8 := 8 - fb
  let b0 := (p.getD byte 0).toNat
  let b1 := (p.getD (byte + 1) 0).toNat
  (b0 >>> fb ||| b1 <<< fb8) &&& hllRegisterMax

/-- `HLL_DENSE_SET_REGISTER`. -/
def hllDenseSetRegister (p : List Byte) (regnum val : ℕ) : List Byte :=
  let byte := regnum * hllBits / 8
  let fb := regnum * hllBits % 8
  let fb8 := 8 - fb
  let p := p.set byte (p.getD byte 0 &&& ~~~BitVec.ofNat 8 (hllRegisterMax <<< fb))
  let p := p.set byte (p.getD byte 0 ||| BitVec.ofNat 8 (val <<< fb))
  let p := p.set (byte + 1) (p.getD (byte + 1) 0 &&& ~~~BitVec.ofNat 8 (hllRegisterMax >>> fb8))
  p.set (byte + 1) (p.getD (byte + 1) 0 ||| BitVec.ofNat 8 (val >>> fb8))

/-! ## Opcodes -/

/-- `HLL_SPARSE_IS_ZERO`, `HLL_SPARSE_IS_XZERO`, `HLL_SPARSE_IS_VAL`. -/
def hllSparseIsZero (b : Byte) : Bool := b &&& 0xc0#8 == 0x00#8
def hllSparseIsXzero (b : Byte) : Bool := b &&& 0xc0#8 == 0x40#8
def hllSparseIsVal (b : Byte) : Bool := b &&& 0x80#8 != 0x00#8

/-- `HLL_SPARSE_ZERO_LEN`, `HLL_SPARSE_XZERO_LEN`, `HLL_SPARSE_VAL_VALUE`,
    `HLL_SPARSE_VAL_LEN`. -/
def hllSparseZeroLen (b : Byte) : ℕ := (b &&& 0x3f#8).toNat + 1
def hllSparseXzeroLen (b b1 : Byte) : ℕ := ((b &&& 0x3f#8).toNat <<< 8 ||| b1.toNat) + 1
def hllSparseValValue (b : Byte) : ℕ := ((b >>> 2) &&& 0x1f#8).toNat + 1
def hllSparseValLen (b : Byte) : ℕ := (b &&& 0x03#8).toNat + 1

/-- `HLL_SPARSE_VAL_SET`, `HLL_SPARSE_ZERO_SET`, `HLL_SPARSE_XZERO_SET`. -/
def hllSparseValSet (val len : ℕ) : List Byte :=
  [BitVec.ofNat 8 ((val - 1) <<< 2 ||| (len - 1) ||| 0x80)]
def hllSparseZeroSet (len : ℕ) : List Byte := [BitVec.ofNat 8 (len - 1)]
def hllSparseXzeroSet (len : ℕ) : List Byte :=
  [BitVec.ofNat 8 ((len - 1) >>> 8 ||| 0x40), BitVec.ofNat 8 ((len - 1) &&& 0xff)]

/-! ## The algorithm -/

/-- The loop `while ((hash & bit) == 0)` of `hllPatLen`, where `bit` is the bit
    at position `63 - n`. -/
def hllPatLenLoop (hash : BitVec 64) : ℕ → ℕ → ℕ
  | 0, count => count
  | n + 1, count =>
    if hash.getLsbD (63 - (n + 1)) then count else hllPatLenLoop hash n (count + 1)

/-- `hllPatLen`: the length of the pattern `000..1`, and the register index. -/
def hllPatLen (hash : BitVec 64) : ℕ × ℕ :=
  let index := (hash &&& 0x3fff#64).toNat
  (hllPatLenLoop (hash ||| 1#64 <<< 63) (63 - hllP) 1, index)

/-- `hllDenseAdd`: the registers, and whether one was updated. -/
def hllDenseAdd (registers : List Byte) (hash : BitVec 64) : List Byte × Bool :=
  let (count, index) := hllPatLen hash
  if count > hllDenseGetRegister registers index then
    (hllDenseSetRegister registers index count, true)
  else (registers, false)

/-- The loop `while (runlen--)` of `hllSparseToDense`. -/
def hllDenseSetRun (regval : ℕ) : ℕ → List Byte → ℕ → List Byte
  | 0, dense, _ => dense
  | runlen + 1, dense, idx =>
    hllDenseSetRun regval runlen (hllDenseSetRegister dense idx regval) (idx + 1)

/-- The loop of `hllSparseToDense` over the opcodes: the dense registers, and
    the number of registers covered. -/
def hllSparseToDenseLoop : List Byte → List Byte → ℕ → Option (List Byte × ℕ)
  | [], dense, idx => some (dense, idx)
  | b :: p, dense, idx =>
    if hllSparseIsZero b then hllSparseToDenseLoop p dense (idx + hllSparseZeroLen b)
    else if hllSparseIsXzero b then
      match p with
      | [] => none
      | b1 :: p => hllSparseToDenseLoop p dense (idx + hllSparseXzeroLen b b1)
    else
      hllSparseToDenseLoop p (hllDenseSetRun (hllSparseValValue b) (hllSparseValLen b) dense idx)
        (idx + hllSparseValLen b)

/-- `hllSparseToDense`: the counter, and whether the result is `C_OK`.  The
    block of the dense registers is allocated, so its address is aligned. -/
def hllSparseToDense (hll : Hll) : Option (Hll × Bool) :=
  match hll.encoding with
  | .dense => some (hll, true)
  | .sparse => do
    let (dense, idx) ←
      hllSparseToDenseLoop hll.registers.bytes (List.replicate hllDenseSize 0) 0
    if idx ≠ hllRegisters then some (hll, false)
    else some ({ hll with registers := ⟨0, dense⟩, encoding := .dense }, true)

/-- What step 1 of `hllSparseAdd` finds: the opcode at `p` covers `span`
    registers from `first`, and `prev` is the opcode before it. -/
structure SparseLoc where
  p : ℕ
  first : ℕ
  span : ℕ
  prev : Option ℕ

/-- Step 1 of `hllSparseAdd`: locate the opcode that covers `index`. -/
def hllSparseLocate (index : ℕ) : List Byte → ℕ → ℕ → Option ℕ → Option SparseLoc
  | [], _, _, _ => none
  | b :: rest, p, first, prev =>
    if hllSparseIsZero b || hllSparseIsVal b then
      let span := if hllSparseIsZero b then hllSparseZeroLen b else hllSparseValLen b
      if index ≤ first + span - 1 then some ⟨p, first, span, prev⟩
      else hllSparseLocate index rest (p + 1) (first + span) (some p)
    else
      match rest with
      | [] => none
      | b1 :: rest =>
        let span := hllSparseXzeroLen b b1
        if index ≤ first + span - 1 then some ⟨p, first, span, prev⟩
        else hllSparseLocate index rest (p + 2) (first + span) (some p)

/-- A run of `len` zero registers, as step 2 of `hllSparseAdd` writes it. -/
def hllSparseZeros (len : ℕ) : List Byte :=
  if len > hllSparseZeroMaxLen then hllSparseXzeroSet len else hllSparseZeroSet len

/-- Step 2 D of `hllSparseAdd`: the opcodes for the registers `first` to
    `last`, which `run` writes, with `index` set to `count`. -/
def hllSparseSplit (run : ℕ → List Byte) (count index first last : ℕ) : List Byte :=
  (if index ≠ first then run (index - first) else []) ++ hllSparseValSet count 1 ++
    (if index ≠ last then run (last - index) else [])

/-- Step 4 of `hllSparseAdd`: merge adjacent `VAL` opcodes, scanning up to
    `scanlen` opcodes. -/
def hllSparseMerge : ℕ → List Byte → List Byte
  | 0, p => p
  | _ + 1, [] => []
  | scanlen + 1, b :: p =>
    if hllSparseIsXzero b then b :: (p.take 1 ++ hllSparseMerge scanlen (p.drop 1))
    else if hllSparseIsZero b then b :: hllSparseMerge scanlen p
    else
      match p with
      | [] => [b]
      | b1 :: p =>
        let len := hllSparseValLen b + hllSparseValLen b1
        if hllSparseIsVal b1 ∧ hllSparseValValue b = hllSparseValValue b1 ∧
            len ≤ hllSparseValMaxLen then
          -- the merged opcode is looked at again, for a merge on its right
          hllSparseMerge scanlen (hllSparseValSet (hllSparseValValue b) len ++ p)
        else b :: hllSparseMerge scanlen (b1 :: p)

/-- The label `updated` of `hllSparseAdd`. -/
def hllSparseUpdated (hll : Hll) (bytes : List Byte) (prev : Option ℕ) : Hll × ℤ :=
  let p := prev.getD 0
  let bytes := bytes.take p ++ hllSparseMerge 5 (bytes.drop p)
  ({ hll with registers := { hll.registers with bytes := bytes } }.invalidateCache, 1)

/-- The label `promote` of `hllSparseAdd`. -/
def hllSparsePromote (hll : Hll) (hash : BitVec 64) : Option (Hll × ℤ) := do
  let (hll, ok) ← hllSparseToDense hll
  if !ok then some (hll, -1)
  else
    let (bytes, updated) := hllDenseAdd hll.registers.bytes hash
    -- assert(dense_retval == 1)
    if updated then some ({ hll with registers := { hll.registers with bytes := bytes } }, 1)
    else none

/-- `hllSparseAdd`. -/
def hllSparseAdd (hll : Hll) (hash : BitVec 64) : Option (Hll × ℤ) :=
  let (count, index) := hllPatLen hash
  if count > hllSparseValMaxValue then hllSparsePromote hll hash
  else if hll.registers.bytes = [] then some (hll, -1)
  else do
    let bytes := hll.registers.bytes
    let loc ← hllSparseLocate index bytes 0 0 none
    let b := bytes.getD loc.p 0
    let last := loc.first + loc.span - 1
    if hllSparseIsVal b ∧ hllSparseValValue b ≥ count then some (hll, 0)
    else if hllSparseIsVal b ∧ loc.span = 1 then
      some (hllSparseUpdated hll (splice bytes loc.p (hllSparseValSet count 1)) loc.prev)
    else if hllSparseIsZero b ∧ loc.span = 1 then
      some (hllSparseUpdated hll (splice bytes loc.p (hllSparseValSet count 1)) loc.prev)
    else
      let seq :=
        if hllSparseIsZero b ∨ hllSparseIsXzero b then
          hllSparseSplit hllSparseZeros count index loc.first last
        else hllSparseSplit (hllSparseValSet (hllSparseValValue b)) count index loc.first last
      let oldlen := if hllSparseIsXzero b then 2 else 1
      if seq.length > oldlen ∧ bytes.length > hllSparseMaxBytes then hllSparsePromote hll hash
      else
        -- step 3: the bytes after the opcode move, the sequence takes its place
        some (hllSparseUpdated hll (bytes.take loc.p ++ seq ++ bytes.drop (loc.p + oldlen)) loc.prev)

/-! ## Counting -/

/-- The table `PE` of `hllCount`: `2^-reg`. -/
def hllPE (reg : ℕ) : ℚ := (1 / 2) ^ reg

/-- Sixteen registers of an iteration of `hllDenseSum`, from the twelve bytes
    `r`. -/
def hllDenseGroup (r : ℕ → ℕ) : List ℕ :=
  [r 0 &&& 63, (r 0 >>> 6 ||| r 1 <<< 2) &&& 63, (r 1 >>> 4 ||| r 2 <<< 4) &&& 63,
    (r 2 >>> 2) &&& 63, r 3 &&& 63, (r 3 >>> 6 ||| r 4 <<< 2) &&& 63,
    (r 4 >>> 4 ||| r 5 <<< 4) &&& 63, (r 5 >>> 2) &&& 63, r 6 &&& 63,
    (r 6 >>> 6 ||| r 7 <<< 2) &&& 63, (r 7 >>> 4 ||| r 8 <<< 4) &&& 63, (r 8 >>> 2) &&& 63,
    r 9 &&& 63, (r 9 >>> 6 ||| r 10 <<< 2) &&& 63, (r 10 >>> 4 ||| r 11 <<< 4) &&& 63,
    (r 11 >>> 2) &&& 63]

/-- `hllDenseSum`: the sum of `2^-reg`, and the number of zero registers. -/
def hllDenseSum (registers : List Byte) : ℚ × ℕ :=
  (List.range 1024).foldl (fun (E, ez) j =>
    let group := hllDenseGroup fun i => (registers.getD (12 * j + i) 0).toNat
    (E + (group.map hllPE).sum, ez + group.count 0)) (0, 0)

/-- `hllSparseSum`; the number of registers covered comes last. -/
def hllSparseSum : List Byte → ℚ → ℕ → ℕ → ℚ × ℕ × ℕ
  | [], E, ez, idx => (E + ez, ez, idx)
  | b :: p, E, ez, idx =>
    if hllSparseIsZero b then
      hllSparseSum p E (ez + hllSparseZeroLen b) (idx + hllSparseZeroLen b)
    else if hllSparseIsXzero b then
      match p with
      | [] => (E + ez, ez, idx)
      | b1 :: p => hllSparseSum p E (ez + hllSparseXzeroLen b b1) (idx + hllSparseXzeroLen b b1)
    else
      hllSparseSum p (E + hllPE (hllSparseValValue b) * hllSparseValLen b) ez
        (idx + hllSparseValLen b)

/-- `hllCount`, where `estimate` computes the cardinality from the sum of
    `2^-reg` and the number of zero registers. -/
def hllCount (estimate : ℚ → ℕ → BitVec 64) (hll : Hll) : Hll × BitVec 64 :=
  if hll.validCache then (hll, hll.card)
  else
    let (E, ez) :=
      match hll.encoding with
      | .dense => hllDenseSum hll.registers.bytes
      | .sparse =>
        let (E, ez, _) := hllSparseSum hll.registers.bytes 0 0 0
        (E, ez)
    ({ hll with card := estimate E ez }, estimate E ez)

/-! ## Commands -/

/-- `hllAdd`. -/
def hllAdd (hll : Hll) (hash : BitVec 64) : Option (Hll × ℤ) := do
  let (hll, updated) ←
    match hll.encoding with
    | .dense =>
      let (bytes, updated) := hllDenseAdd hll.registers.bytes hash
      some ({ hll with registers := { hll.registers with bytes := bytes } },
        if updated then (1 : ℤ) else 0)
    | .sparse => hllSparseAdd hll hash
  if updated ≠ 0 then some (hll.invalidateCache, updated) else some (hll, updated)

/-- `hllInit`: one `XZERO` opcode covers all registers. -/
def hllInit : Hll where
  card := 0
  encoding := .sparse
  registers := ⟨0, hllSparseXzeroSet hllRegisters⟩
  registersOwned := true

/-- `hllInitFromBuffer`. -/
def hllInitFromBuffer (registers : ByteSlice) : Option Hll :=
  if registers.len = hllDenseSize then
    some { card := 0, encoding := .dense, registers, registersOwned := false : Hll }.invalidateCache
  else none

/-- `hllMerge`: the merged `dst`, and `src`, which is converted to the dense
    encoding. -/
def hllMerge (dst src : Hll) : Option (Hll × Hll) := do
  let (src, _) ← hllSparseToDense src
  let (dst, _) ← hllSparseToDense dst
  if src.encoding = .dense ∧ dst.encoding = .dense then
    let registers ← byteSliceBitwiseOr dst.registers src.registers
    some ({ dst with registers, card := -1 }, src)
  else none

end Honas

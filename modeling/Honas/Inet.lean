/-
  Addresses with a prefix length (`src/inet.c`).

  `parse_ipv4_cidr` and `parse_ipv6_cidr` look for a slash, parse the number
  behind it, build the netmask and parse the address in front of it, for which
  they store a terminator in place of the slash.  What is an address is
  up to `inet_pton`.

  `parseCidr_law_iff`: exactly when a text is parsed as a CIDR of its family.
  The number is truncated to an `int` before its range is checked, and the
  result of `parse_ipv6` is lost.
-/
import Honas.Utils
import Honas.Lib.Bits

namespace Honas

open Bits Numeral

/-! ## Addresses -/

/-- `AF_INET` and `AF_INET6`. -/
inductive Family
  | inet
  | inet6
deriving DecidableEq

/-- The size of an `in_addr` and of an `in6_addr`. -/
def Family.size : Family → ℕ
  | inet => 4
  | inet6 => 16

/-- `inet_pton`: the bytes of the address, or `none` if it does not return 1. -/
abbrev InetPton := Family → List Char → Option (List Byte)

/-- `sa_in46`: the family, `none` for `AF_UNSPEC`, and the address. -/
structure SaIn46 where
  af : Option Family
  addr : List Byte

/-- `parse_ip`. -/
def parseIp (inetPton : InetPton) (text : List Char) (sa : SaIn46) (allowAny : Bool) : ℤ × SaIn46 :=
  if allowAny ∧ text = ['*'] then
    let af := sa.af.getD .inet6
    (0, ⟨some af, List.replicate af.size 0⟩)
  else
    let af := sa.af.getD (if ':' ∈ text then .inet6 else .inet)
    match inetPton af text with
    | some addr => (0, ⟨some af, addr⟩)
    | none => (-1, ⟨some af, sa.addr⟩)

/-- The common body of `parse_ipv4` and `parse_ipv6`, which copies the address when it
    has been parsed. -/
def parseFamily (af : Family) (inetPton : InetPton) (text : List Char) (ia : List Byte)
    (allowAny : Bool) : ℤ × List Byte :=
  let r := parseIp inetPton text ⟨some af, []⟩ allowAny
  if r.1 = -1 then (-1, ia) else (0, r.2.addr)

/-- `parse_ipv4`. -/
def parseIpv4 := parseFamily .inet

/-- `parse_ipv6`. -/
def parseIpv6 := parseFamily .inet6

/-! ## The netmasks -/

/-- `htonl`, on a little-endian machine. -/
def htonl (x : BitVec 32) : BitVec 32 := BitVec.ofNat 32 (ofLE (toLE 4 x.toNat).reverse)

/-- The netmask of `parse_ipv4_cidr`.  For a prefix of one bit the `int` computation
    `~((1 << 31) - 1)` overflows: its value is `overflow`. -/
def ipv4Netmask (overflow : BitVec 32) (i : ℕ) : List Byte :=
  if i = 0 then toLE 4 0
  else
    let mask := if i = 1 then overflow else ~~~((1#32 <<< (32 - i)) - 1#32)
    toLE 4 (htonl mask).toNat

/-- The loop of `parse_ipv6_cidr` from byte `nm_pos`, and the byte behind it. -/
def ipv6Loop (netmask : List Byte) (nmPos : ℕ) : ℕ → List Byte
  | i + 8 => ipv6Loop (netmask.set nmPos 0xff) (nmPos + 1) i
  | i => if i > 0 then netmask.set nmPos (BitVec.ofNat 8 ((0xff00 >>> i) &&& 0xff)) else netmask

/-- The netmask of `parse_ipv6_cidr`. -/
def ipv6Netmask (i : ℕ) : List Byte := ipv6Loop (List.replicate 16 0) 0 i

/-! ## CIDRs -/

/-- The terminator of a string. -/
def nul : Char := Char.ofNat 0

/-- The string in a buffer. -/
def cString (buf : List Char) : List Char := buf.takeWhile (· ≠ nul)

/-- What a call leaves: the result, the text buffer, the address and the netmask. -/
structure CidrResult where
  ret : ℤ
  text : List Char
  ia : List Byte
  netmask : List Byte
deriving DecidableEq

/-- `parse_ipv4_cidr`. -/
def parseIpv4Cidr (inetPton : InetPton) (overflow : BitVec 32) (text : List Char)
    (ia netmask : List Byte) (allowAny : Bool) : CidrResult :=
  match (cString text).idxOf? '/' with
  | none =>
    if allowAny ∧ cString text = ['*'] then ⟨0, text, toLE 4 0, toLE 4 0⟩
    else
      let r := parseIpv4 inetPton (cString text) ia false
      ⟨r.1, text, r.2, toLE 4 0xffffffff⟩
  | some idx =>
    let n := myStrtol (cString (text.drop (idx + 1))) 0
    if n.1 ≠ 0 then ⟨-1, text, ia, netmask⟩
    else
      let i := n.2.toInt
      if i < 0 ∨ i > 32 then ⟨-1, text, ia, netmask⟩
      else
        let text := text.set idx nul
        let r := parseIpv4 inetPton (cString text) ia false
        ⟨r.1, text.set idx '/', r.2, ipv4Netmask overflow i.toNat⟩

/-- `parse_ipv6_cidr`. -/
def parseIpv6Cidr (inetPton : InetPton) (text : List Char) (ia netmask : List Byte)
    (allowAny : Bool) : CidrResult :=
  match (cString text).idxOf? '/' with
  | none =>
    if allowAny ∧ cString text = ['*'] then
      ⟨0, text, List.replicate 16 0, List.replicate 16 0⟩
    else
      let r := parseIpv6 inetPton (cString text) ia false
      ⟨r.1, text, r.2, List.replicate 16 0xff⟩
  | some idx =>
    let n := myStrtol (cString (text.drop (idx + 1))) 0
    if n.1 ≠ 0 then ⟨-1, text, ia, netmask⟩
    else
      let i := n.2.toInt
      if i < 0 ∨ i > 128 then ⟨-1, text, ia, netmask⟩
      else
        let text := text.set idx nul
        let r := parseIpv6 inetPton (cString text) ia false
        -- the result of `parse_ipv6` is not returned
        ⟨0, text.set idx '/', r.2, ipv6Netmask i.toNat⟩

/-! ## Network order -/

/-- Bit `k` of an address or a netmask, in network order. -/
def addrBit (bytes : List Byte) (k : ℕ) : Bool := (bytes.getD (k / 8) 0).getLsbD (7 - k % 8)

/-- Exactly the first `n` bits are ones. -/
def LeadingOnes (n : ℕ) (bytes : List Byte) : Prop :=
  ∀ k < 8 * bytes.length, addrBit bytes k = decide (k < n)

theorem addrBit_reverse {bytes : List Byte} {k : ℕ} (hk : k < 8 * bytes.length) :
    addrBit bytes.reverse k = bitAt bytes (8 * bytes.length - 1 - k) := by
  have hbyte : (8 * bytes.length - 1 - k) / 8 = bytes.length - 1 - k / 8 := by omega
  have hbit : (8 * bytes.length - 1 - k) % 8 = 7 - k % 8 := by omega
  rw [addrBit, bitAt, hbyte, hbit, List.getD_eq_getElem?_getD, List.getD_eq_getElem?_getD,
    List.getElem?_reverse (by omega)]

/-- The bytes of an address that has been converted with `htonl`. -/
theorem addrBit_htonl (x : BitVec 32) {k : ℕ} (hk : k < 32) :
    addrBit (toLE 4 (htonl x).toNat) k = x.getLsbD (31 - k) := by
  have hlen : (toLE 4 x.toNat).reverse.length = 4 := by rw [List.length_reverse, length_toLE]
  have hlt := ofLE_lt (toLE 4 x.toNat).reverse
  have hswap : toLE 4 (htonl x).toNat = (toLE 4 x.toNat).reverse := by
    have hle := toLE_ofLE (toLE 4 x.toNat).reverse
    rw [hlen] at hle hlt
    rw [htonl, BitVec.toNat_ofNat, Nat.mod_eq_of_lt (by omega), hle]
  have hbits : bitAt (toLE 4 x.toNat) (31 - k) = x.toNat.testBit (31 - k) := by
    have hx : x.toNat < 2 ^ 32 := x.isLt
    rw [← testBit_ofLE, ofLE_toLE, Nat.mod_eq_of_lt (by omega)]
  rw [hswap, addrBit_reverse (by rw [length_toLE]; omega), length_toLE, hbits]
  exact BitVec.testBit_toNat x

theorem addrBit_set (bytes : List Byte) (pos : ℕ) (b : Byte) (k : ℕ) :
    addrBit (bytes.set pos b) k =
      if k / 8 = pos ∧ pos < bytes.length then b.getLsbD (7 - k % 8) else addrBit bytes k := by
  unfold addrBit
  rw [List.getD_eq_getElem?_getD, List.getElem?_set]
  by_cases hpos : k / 8 = pos
  · subst hpos
    by_cases hl : k / 8 < bytes.length
    · simp [hl]
    · simp [hl]
  · simp [hpos, Ne.symm hpos]

/-! ## The bits of the netmasks -/

theorem getLsbD_mask {i : ℕ} (h1 : 1 < i) (hi : i ≤ 32) {j : ℕ} (hj : j < 32) :
    (~~~((1#32 <<< (32 - i)) - 1#32)).getLsbD j = decide (32 - i ≤ j) := by
  have hlt : 2 ^ (32 - i) < 2 ^ 32 := Nat.pow_lt_pow_right (by norm_num) (by omega)
  have hone : (1#32 <<< (32 - i)).toNat = 2 ^ (32 - i) := by
    rw [BitVec.toNat_shiftLeft, Nat.shiftLeft_eq, show (1#32).toNat = 1 from rfl, Nat.one_mul,
      Nat.mod_eq_of_lt hlt]
  have hpos : 0 < 2 ^ (32 - i) := Nat.two_pow_pos _
  have hsub : ((1#32 <<< (32 - i)) - 1#32).toNat = 2 ^ (32 - i) - 1 := by
    rw [BitVec.toNat_sub, hone, BitVec.toNat_ofNat]
    omega
  rw [BitVec.getLsbD_not, decide_eq_true hj, Bool.true_and, ← BitVec.testBit_toNat, hsub,
    Nat.testBit_two_pow_sub_one, ← decide_not]
  exact decide_eq_decide.2 not_lt

theorem leadingOnes_htonl {x : BitVec 32} {n : ℕ}
    (h : ∀ j < 32, x.getLsbD j = decide (32 - n ≤ j ∧ 0 < n)) :
    LeadingOnes n (toLE 4 (htonl x).toNat) := by
  intro k hk
  rw [length_toLE] at hk
  rw [addrBit_htonl x hk, h (31 - k) (by omega)]
  exact decide_eq_decide.2 ⟨fun h => by omega, fun h => by omega⟩

/-- **The IPv4 netmask** of every prefix but one is right, whatever the overflow. -/
theorem leadingOnes_ipv4Netmask {overflow : BitVec 32} {i : ℕ} (hi : i ≤ 32)
    (h1 : i = 1 → overflow = 0x80000000#32) : LeadingOnes i (ipv4Netmask overflow i) := by
  unfold ipv4Netmask
  split_ifs with h0 h1'
  · subst h0
    have hzero : toLE 4 0 = toLE 4 (htonl 0).toNat := by decide
    rw [hzero]
    exact leadingOnes_htonl fun j _ => by simp
  · subst h1'
    rw [h1 rfl]
    refine leadingOnes_htonl fun j hj => ?_
    interval_cases j <;> rfl
  · refine leadingOnes_htonl fun j hj => ?_
    rw [getLsbD_mask (by omega) hi hj]
    exact decide_eq_decide.2 ⟨fun h => by omega, fun h => by omega⟩

/-- The value that the overflowing computation must have. -/
theorem overflow_eq_of_leadingOnes {overflow : BitVec 32}
    (h : LeadingOnes 1 (ipv4Netmask overflow 1)) : overflow = 0x80000000#32 := by
  refine BitVec.eq_of_getLsbD_eq fun j hj => ?_
  have hbit := h (31 - j) (by
    rw [ipv4Netmask, if_neg one_ne_zero, length_toLE]
    omega)
  rw [ipv4Netmask, if_neg one_ne_zero, if_pos rfl, addrBit_htonl _ (by omega),
    show 31 - (31 - j) = j by omega] at hbit
  rw [hbit]
  interval_cases j <;> rfl

theorem leadingOnes_ipv6Loop (netmask : List Byte) (nmPos i : ℕ) (hl : netmask.length = 16)
    (hi : 8 * nmPos + i ≤ 128) (h : LeadingOnes (8 * nmPos) netmask) :
    LeadingOnes (8 * nmPos + i) (ipv6Loop netmask nmPos i) := by
  fun_induction ipv6Loop netmask nmPos i with
  | case1 netmask nmPos i ih =>
    rw [show 8 * nmPos + (i + 8) = 8 * (nmPos + 1) + i by omega]
    refine ih (by rw [List.length_set, hl]) (by omega) fun k hk => ?_
    rw [List.length_set] at hk
    rw [addrBit_set, h k hk]
    have hff : ∀ t < 8, (0xff : Byte).getLsbD (7 - t) = true := by decide
    split_ifs with hpos
    · rw [hff _ (Nat.mod_lt _ (by norm_num)), decide_eq_true (by omega)]
    · exact decide_eq_decide.2 ⟨fun h => by omega, fun h => by omega⟩
  | case2 netmask nmPos i hlt hpos =>
    have h8 : i < 8 := by
      by_contra hge
      exact hlt (i - 8) (by omega)
    have hbyte : ∀ i < 8, ∀ t < 8,
        (BitVec.ofNat 8 ((0xff00 >>> i) &&& 0xff)).getLsbD (7 - t) = decide (t < i) := by decide
    intro k hk
    rw [List.length_set] at hk
    rw [addrBit_set, h k hk]
    split_ifs with hk'
    · rw [hbyte i h8 _ (Nat.mod_lt _ (by norm_num))]
      exact decide_eq_decide.2 ⟨fun h => by omega, fun h => by omega⟩
    · exact decide_eq_decide.2 ⟨fun h => by omega, fun h => by omega⟩
  | case3 netmask nmPos i hlt hpos =>
    obtain rfl : i = 0 := by omega
    exact h

/-- **The IPv6 netmask** is right for every prefix. -/
theorem leadingOnes_ipv6Netmask {i : ℕ} (hi : i ≤ 128) : LeadingOnes i (ipv6Netmask i) := by
  have hzero : LeadingOnes (8 * 0) (List.replicate 16 0) := by
    intro k hk
    rw [List.length_replicate] at hk
    have hbyte : (List.replicate 16 (0 : Byte)).getD (k / 8) 0 = 0 := by
      rw [List.getD_eq_getElem?_getD, List.getElem?_replicate]
      split_ifs <;> rfl
    rw [addrBit, hbyte]
    simp
  have h := leadingOnes_ipv6Loop (List.replicate 16 0) 0 i List.length_replicate (by omega) hzero
  rwa [Nat.mul_zero, Nat.zero_add] at h

/-! ## The text buffer -/

/-- What the functions see of a buffer whose string has a slash, and the buffer after
    the slash has been restored. -/
theorem cString_slash {text addr num : List Char} (h : cString text = addr ++ '/' :: num) :
    cString (text.drop (addr.length + 1)) = num ∧ cString (text.set addr.length nul) = addr ∧
      (text.set addr.length nul).set addr.length '/' = text := by
  set rest := text.dropWhile (· ≠ nul) with hrest
  have htext : text = addr ++ '/' :: (num ++ rest) := by
    have happend : cString text ++ rest = text := List.takeWhile_append_dropWhile
    rw [← happend, h]
    simp
  have hne : ∀ c ∈ addr ++ '/' :: num, decide (c ≠ nul) = true := fun c hc => by
    rw [← h, cString] at hc
    have himp := List.mem_takeWhile_imp hc
    exact himp
  have hstop : rest.takeWhile (· ≠ nul) = [] := by
    have hhead := List.head?_dropWhile_not (fun c => decide (c ≠ nul)) text
    rw [← hrest] at hhead
    cases hr : rest with
    | nil => rfl
    | cons c r =>
      rw [hr] at hhead
      exact List.takeWhile_cons_of_neg (by simpa using hhead)
  have haddr : ∀ c ∈ addr, decide (c ≠ nul) = true := fun c hc => hne c (by simp [hc])
  have hnum : ∀ c ∈ num, decide (c ≠ nul) = true := fun c hc => hne c (by simp [hc])
  have hset : ∀ c, text.set addr.length c = addr ++ c :: (num ++ rest) := fun c => by
    rw [htext, List.set_append_right _ _ le_rfl, Nat.sub_self, List.set_cons_zero]
  refine ⟨?_, ?_, ?_⟩
  · have hdrop : text.drop (addr.length + 1) = num ++ rest := by
      rw [htext, ← List.drop_drop, List.drop_left, List.drop_one, List.tail_cons]
    rw [cString, hdrop, List.takeWhile_append_of_pos hnum, hstop, List.append_nil]
  · rw [cString, hset, List.takeWhile_append_of_pos haddr, List.takeWhile_cons_of_neg (by simp),
      List.append_nil]
  · rw [List.set_set, hset, ← htext]

/-! ## The prefix length -/

/-- The `int` after the truncation is in the range of the prefix lengths. -/
theorem toInt_ofInt_le_iff {max : ℕ} (hmax : max < 2 ^ 31) (v : ℤ) :
    ¬ ((BitVec.ofInt 32 v).toInt < 0 ∨ (BitVec.ofInt 32 v).toInt > max) ↔ v % 2 ^ 32 ≤ max := by
  rw [BitVec.toInt_ofInt, Int.bmod_def]
  have hnonneg := Int.emod_nonneg v (show (2 ^ 32 : ℤ) ≠ 0 by norm_num)
  have hlt := Int.emod_lt_of_pos v (show (0 : ℤ) < 2 ^ 32 by norm_num)
  norm_num at *
  split_ifs <;> omega

theorem toInt_ofInt_of_le {max : ℕ} (hmax : max < 2 ^ 31) {v : ℤ} (h : v % 2 ^ 32 ≤ max) :
    (BitVec.ofInt 32 v).toInt = v % 2 ^ 32 := by
  rw [BitVec.toInt_ofInt, Int.bmod_def]
  norm_num at *
  omega

/-- The number behind the slash passes the range check of the `int`. -/
def Truncates (max : ℕ) (num : List Char) (v : ℤ) : Prop := ReadsLong num v ∧ v % 2 ^ 32 ≤ max

variable {inetPton : InetPton} {overflow : BitVec 32} {text addr num : List Char} {v : ℤ}

theorem parseFamily_ret (af : Family) (s : List Char) (ia : List Byte) :
    (parseFamily af inetPton s ia false).1 = if (inetPton af s).isSome then 0 else -1 := by
  simp only [parseFamily, parseIp, Bool.false_eq_true, false_and, if_false, Option.getD_some]
  cases inetPton af s <;> rfl

theorem idxOf?_slash (hslash : '/' ∉ addr) : (addr ++ '/' :: num).idxOf? '/' = some addr.length := by
  refine List.idxOf?_eq_some_iff.2 ⟨by simp, by simp, fun j hj hget => hslash ?_⟩
  rw [List.getElem_append_left hj] at hget
  exact hget ▸ List.getElem_mem hj

theorem parseIpv4Cidr_of_truncates (h : cString text = addr ++ '/' :: num) (hslash : '/' ∉ addr)
    (hv : Truncates 32 num v) (ia netmask : List Byte) :
    parseIpv4Cidr inetPton overflow text ia netmask false =
      ⟨(parseIpv4 inetPton addr ia false).1, text, (parseIpv4 inetPton addr ia false).2,
        ipv4Netmask overflow (v % 2 ^ 32).toNat⟩ := by
  obtain ⟨hnum, haddr, hset⟩ := cString_slash h
  have hidx : (cString text).idxOf? '/' = some addr.length := by rw [h, idxOf?_slash hslash]
  have hrange := (@toInt_ofInt_le_iff 32 (by norm_num) v).2 hv.2
  rw [Nat.cast_ofNat] at hrange
  simp only [parseIpv4Cidr, hidx, hnum, haddr, hset, myStrtol_of_readsLong hv.1]
  rw [if_neg (by simp), if_neg hrange, toInt_ofInt_of_le (by norm_num) hv.2]

theorem parseIpv4Cidr_of_not_truncates (h : cString text = addr ++ '/' :: num)
    (hslash : '/' ∉ addr) (hv : ¬ ∃ v, Truncates 32 num v) (ia netmask : List Byte) :
    parseIpv4Cidr inetPton overflow text ia netmask false = ⟨-1, text, ia, netmask⟩ := by
  obtain ⟨hnum, -, -⟩ := cString_slash h
  have hidx : (cString text).idxOf? '/' = some addr.length := by rw [h, idxOf?_slash hslash]
  simp only [parseIpv4Cidr, hidx, hnum]
  by_cases hlong : ∃ v, ReadsLong num v
  · obtain ⟨v, hlong⟩ := hlong
    have hrange : (BitVec.ofInt 32 v).toInt < 0 ∨ (BitVec.ofInt 32 v).toInt > 32 := by
      by_contra hrange
      exact hv ⟨v, hlong, (@toInt_ofInt_le_iff 32 (by norm_num) v).1 hrange⟩
    rw [myStrtol_of_readsLong hlong, if_neg (by simp), if_pos hrange]
  · rw [myStrtol_of_not_readsLong hlong, if_pos (by simp)]

theorem parseIpv6Cidr_of_truncates (h : cString text = addr ++ '/' :: num) (hslash : '/' ∉ addr)
    (hv : Truncates 128 num v) (ia netmask : List Byte) :
    parseIpv6Cidr inetPton text ia netmask false =
      ⟨0, text, (parseIpv6 inetPton addr ia false).2, ipv6Netmask (v % 2 ^ 32).toNat⟩ := by
  obtain ⟨hnum, haddr, hset⟩ := cString_slash h
  have hidx : (cString text).idxOf? '/' = some addr.length := by rw [h, idxOf?_slash hslash]
  have hrange := (@toInt_ofInt_le_iff 128 (by norm_num) v).2 hv.2
  rw [Nat.cast_ofNat] at hrange
  simp only [parseIpv6Cidr, hidx, hnum, haddr, hset, myStrtol_of_readsLong hv.1]
  rw [if_neg (by simp), if_neg hrange, toInt_ofInt_of_le (by norm_num) hv.2]

theorem parseIpv6Cidr_of_not_truncates (h : cString text = addr ++ '/' :: num)
    (hslash : '/' ∉ addr) (hv : ¬ ∃ v, Truncates 128 num v) (ia netmask : List Byte) :
    parseIpv6Cidr inetPton text ia netmask false = ⟨-1, text, ia, netmask⟩ := by
  obtain ⟨hnum, -, -⟩ := cString_slash h
  have hidx : (cString text).idxOf? '/' = some addr.length := by rw [h, idxOf?_slash hslash]
  simp only [parseIpv6Cidr, hidx, hnum]
  by_cases hlong : ∃ v, ReadsLong num v
  · obtain ⟨v, hlong⟩ := hlong
    have hrange : (BitVec.ofInt 32 v).toInt < 0 ∨ (BitVec.ofInt 32 v).toInt > 128 := by
      by_contra hrange
      exact hv ⟨v, hlong, (@toInt_ofInt_le_iff 128 (by norm_num) v).1 hrange⟩
    rw [myStrtol_of_readsLong hlong, if_neg (by simp), if_pos hrange]
  · rw [myStrtol_of_not_readsLong hlong, if_pos (by simp)]

/-! ## The law -/

/-- A text of a family of addresses with prefixes of at most `max` bits, and its prefix
    length. -/
inductive CidrText (valid : List Char → Prop) (max : ℕ) : List Char → ℕ → Prop
  | address {a : List Char} : '/' ∉ a → valid a → CidrText valid max a max
  | slash {a ds : List Char} {n : ℕ} : '/' ∉ a → valid a → IsNumeral isCSpace ds (n : ℤ) → n ≤ max →
      CidrText valid max (a ++ '/' :: ds) n

/-- What `inet_pton` accepts. -/
def InetPton.Valid (inetPton : InetPton) (af : Family) (s : List Char) : Prop :=
  (inetPton af s).isSome

/-- What a call must do with a text: succeed exactly if it is a CIDR, with the netmask
    of its prefix, and leave the text. -/
structure CidrLaw (valid : List Char → Prop) (max : ℕ) (text : List Char)
    (parse : List Byte → List Byte → CidrResult) : Prop where
  ret : ∀ ia netmask, (parse ia netmask).ret = 0 ∨ (parse ia netmask).ret = -1
  success : ∀ ia netmask,
    (parse ia netmask).ret = 0 ↔ ∃ n, CidrText valid max (cString text) n
  netmask : ∀ ia netmask n, (parse ia netmask).ret = 0 → CidrText valid max (cString text) n →
    LeadingOnes n (parse ia netmask).netmask ∧ 8 * (parse ia netmask).netmask.length = max
  text : ∀ ia netmask, (parse ia netmask).text = text

theorem cidrText_address_iff {valid : List Char → Prop} {max n : ℕ} {s : List Char}
    (hs : '/' ∉ s) : CidrText valid max s n ↔ valid s ∧ n = max := by
  constructor
  · intro h
    cases h with
    | address _ hv => exact ⟨hv, rfl⟩
    | slash => exact absurd (by simp) hs
  · rintro ⟨hv, rfl⟩
    exact .address hs hv

theorem takeWhile_slash (hs : '/' ∉ addr) : (addr ++ '/' :: num).takeWhile (· ≠ '/') = addr := by
  have hne : ∀ c ∈ addr, decide (c ≠ '/') = true := fun c hc =>
    decide_eq_true fun h => hs (h ▸ hc)
  rw [List.takeWhile_append_of_pos hne, List.takeWhile_cons_of_neg (by simp), List.append_nil]

/-- A text is split at its first slash in one way only. -/
theorem slash_unique {addr' num' : List Char} (hs : '/' ∉ addr) (hs' : '/' ∉ addr')
    (h : addr ++ '/' :: num = addr' ++ '/' :: num') : addr = addr' ∧ num = num' := by
  have haddr := congrArg (List.takeWhile (· ≠ '/')) h
  rw [takeWhile_slash hs, takeWhile_slash hs'] at haddr
  subst haddr
  exact ⟨rfl, (List.cons.inj (List.append_cancel_left h)).2⟩

theorem cidrText_slash_iff {valid : List Char → Prop} {max n : ℕ} (hs : '/' ∉ addr) :
    CidrText valid max (addr ++ '/' :: num) n ↔
      valid addr ∧ IsNumeral isCSpace num (n : ℤ) ∧ n ≤ max := by
  constructor
  · intro h
    generalize hstr : addr ++ '/' :: num = str at h
    cases h with
    | address hno => exact absurd (by simp [← hstr]) hno
    | slash hs' hv hnum hn =>
      obtain ⟨rfl, rfl⟩ := slash_unique hs hs' hstr
      exact ⟨hv, hnum, hn⟩
  · rintro ⟨hv, hnum, hn⟩
    exact .slash hs hv hnum hn

/-- A numeral has one value. -/
theorem isNumeral_unique {v w : ℤ} (hv : IsNumeral isCSpace num v) (hw : IsNumeral isCSpace num w) :
    v = w :=
  ((isNumeral_iff isCSpace_spaces).1 hv).2.trans ((isNumeral_iff isCSpace_spaces).1 hw).2.symm

/-- A call that refuses a text whose number does not pass the range check is right. -/
theorem cidrLaw_of_not_truncates {valid : List Char → Prop} {max : ℕ} (hmax : max < 2 ^ 31)
    {parse : List Byte → List Byte → CidrResult} (h : cString text = addr ++ '/' :: num)
    (hslash : '/' ∉ addr) (hv : ¬ ∃ v, Truncates max num v)
    (hparse : ∀ ia netmask, parse ia netmask = ⟨-1, text, ia, netmask⟩) :
    CidrLaw valid max text parse := by
  have hfail : ∀ n, ¬ CidrText valid max (cString text) n := by
    intro n hn
    rw [h, cidrText_slash_iff hslash] at hn
    refine hv ⟨n, ⟨hn.2.1, by omega, by omega⟩, ?_⟩
    have := hn.2.2
    omega
  refine ⟨fun ia netmask => ?_, fun ia netmask => ?_, fun ia netmask n h0 hn => (hfail n hn).elim,
    fun ia netmask => ?_⟩
  · exact Or.inr (by rw [hparse])
  · rw [hparse]
    exact iff_of_false (by norm_num) fun hn => hfail _ hn.choose_spec
  · rw [hparse]

/-- A text without a slash is parsed as the address that it is. -/
theorem cidrLaw_of_address {af : Family} {max : ℕ} {ones : List Byte}
    {parse : List Byte → List Byte → CidrResult} (hslash : '/' ∉ cString text)
    (hones : LeadingOnes max ones ∧ 8 * ones.length = max)
    (hparse : ∀ ia netmask, parse ia netmask =
      ⟨(parseFamily af inetPton (cString text) ia false).1, text,
        (parseFamily af inetPton (cString text) ia false).2, ones⟩) :
    CidrLaw (inetPton.Valid af) max text parse := by
  refine ⟨fun ia netmask => ?_, fun ia netmask => ?_, fun ia netmask n h0 hn => ?_,
    fun ia netmask => ?_⟩
  · rw [hparse, parseFamily_ret]
    split_ifs <;> simp
  · rw [hparse, parseFamily_ret]
    simp only [cidrText_address_iff hslash, exists_eq_right, InetPton.Valid]
    split_ifs with hv <;> simp [hv]
  · obtain ⟨-, rfl⟩ := (cidrText_address_iff hslash).1 hn
    rw [hparse]
    exact hones
  · rw [hparse]

/-- What the number behind the slash decides: a call that accepts the prefix `v` modulo
    `2^32`, and the address as `ok` says, is right exactly if `ok` is the validity of
    the address, `v` is a prefix length where it matters, and the netmask is right. -/
theorem cidrLaw_iff_of_truncates {valid : List Char → Prop} {max : ℕ} (hmax : max < 2 ^ 31)
    {parse : List Byte → List Byte → CidrResult} {ok : Prop} {mask : ℕ → List Byte}
    (h : cString text = addr ++ '/' :: num) (hslash : '/' ∉ addr) (hv : Truncates max num v)
    (hret : ∀ ia netmask, ((parse ia netmask).ret = 0 ∧ ok) ∨ ((parse ia netmask).ret = -1 ∧ ¬ ok))
    (hmask : ∀ ia netmask, (parse ia netmask).netmask = mask (v % 2 ^ 32).toNat)
    (hlen : ∀ n, 8 * (mask n).length = max)
    (htext : ∀ ia netmask, (parse ia netmask).text = text) :
    CidrLaw valid max text parse ↔
      (ok ↔ valid addr ∧ 0 ≤ v ∧ v ≤ max) ∧ (ok → LeadingOnes v.toNat (mask v.toNat)) := by
  have hcidr : (∃ n, CidrText valid max (cString text) n) ↔ valid addr ∧ 0 ≤ v ∧ v ≤ max := by
    simp only [h, cidrText_slash_iff hslash]
    constructor
    · rintro ⟨n, hval, hnum, hn⟩
      have hvn := isNumeral_unique hnum hv.1.1
      exact ⟨hval, by omega, by omega⟩
    · rintro ⟨hval, h0, hle⟩
      have hcast : ((v.toNat : ℕ) : ℤ) = v := Int.toNat_of_nonneg h0
      exact ⟨v.toNat, hval, by rw [hcast]; exact hv.1.1, by omega⟩
  have hzero : ∀ ia netmask, (parse ia netmask).ret = 0 ↔ ok := by
    intro ia netmask
    obtain ⟨h0, hok⟩ | ⟨h1, hok⟩ := hret ia netmask
    · exact iff_of_true h0 hok
    · exact iff_of_false (by rw [h1]; norm_num) hok
  have hmod : 0 ≤ v → v ≤ max → v % 2 ^ 32 = v := fun h0 hle => Int.emod_eq_of_lt h0 (by omega)
  constructor
  · intro hlaw
    have hiff : ok ↔ valid addr ∧ 0 ≤ v ∧ v ≤ max :=
      (hzero [] []).symm.trans ((hlaw.success [] []).trans hcidr)
    refine ⟨hiff, fun hok => ?_⟩
    obtain ⟨n, hn⟩ := hcidr.2 (hiff.1 hok)
    have hones := (hlaw.netmask [] [] n ((hzero [] []).2 hok) hn).1
    rw [h, cidrText_slash_iff hslash] at hn
    obtain rfl := isNumeral_unique hn.2.1 hv.1.1
    rw [hmask, hmod (by omega) (by have := hn.2.2; omega), Int.toNat_natCast] at hones
    rw [Int.toNat_natCast]
    exact hones
  · rintro ⟨hiff, hones⟩
    refine ⟨fun ia netmask => (hret ia netmask).imp And.left And.left,
      fun ia netmask => (hzero ia netmask).trans (hiff.trans hcidr.symm),
      fun ia netmask n h0 hn => ?_, htext⟩
    have hok := (hzero ia netmask).1 h0
    obtain ⟨-, hv0, hvmax⟩ := hiff.1 hok
    rw [h, cidrText_slash_iff hslash] at hn
    have hnv := isNumeral_unique hn.2.1 hv.1.1
    have hn' : n = v.toNat := by omega
    rw [hmask, hmod hv0 hvmax, hn']
    exact ⟨hones hok, hlen _⟩

theorem length_ipv4Netmask (i : ℕ) : 8 * (ipv4Netmask overflow i).length = 32 := by
  unfold ipv4Netmask
  split_ifs <;> rw [length_toLE]

theorem length_ipv6Loop (netmask : List Byte) (nmPos i : ℕ) :
    (ipv6Loop netmask nmPos i).length = netmask.length := by
  fun_induction ipv6Loop netmask nmPos i with
  | case1 netmask nmPos i ih => rw [ih, List.length_set]
  | case2 => rw [List.length_set]
  | case3 => rfl

theorem length_ipv6Netmask (i : ℕ) : 8 * (ipv6Netmask i).length = 128 := by
  rw [ipv6Netmask, length_ipv6Loop, List.length_replicate]

/-- What holds of the address and of the number in a text whose number passes the range
    check of the `int`. -/
def WhenTruncates (max : ℕ) (s : List Char) (P : List Char → ℤ → Prop) : Prop :=
  ∀ addr num v, s = addr ++ '/' :: num → '/' ∉ addr → Truncates max num v → P addr v

theorem whenTruncates_iff {max : ℕ} {P : List Char → ℤ → Prop} (hs : '/' ∉ addr)
    (hv : Truncates max num v) : WhenTruncates max (addr ++ '/' :: num) P ↔ P addr v := by
  constructor
  · exact fun h => h addr num v rfl hs hv
  · intro hP addr' num' v' hstr hs' hv'
    obtain ⟨rfl, rfl⟩ := slash_unique hs hs' hstr
    rw [isNumeral_unique hv'.1.1 hv.1.1]
    exact hP

theorem whenTruncates_of_notMem {max : ℕ} {P : List Char → ℤ → Prop} {s : List Char}
    (hs : '/' ∉ s) : WhenTruncates max s P := by
  rintro addr num v rfl
  exact absurd (by simp) hs

theorem whenTruncates_of_not {max : ℕ} {P : List Char → ℤ → Prop} (hs : '/' ∉ addr)
    (hv : ¬ ∃ v, Truncates max num v) : WhenTruncates max (addr ++ '/' :: num) P := by
  intro addr' num' v' hstr hs' hv'
  obtain ⟨rfl, rfl⟩ := slash_unique hs hs' hstr
  exact absurd ⟨v', hv'⟩ hv

/-- The texts that `parse_ipv4_cidr` treats right: if the address is valid, the number is
    a prefix length itself, and not the one whose netmask overflows to another value. -/
def Ipv4CidrOk (inetPton : InetPton) (overflow : BitVec 32) (s : List Char) : Prop :=
  WhenTruncates 32 s fun addr v => inetPton.Valid .inet addr →
    (0 ≤ v ∧ v ≤ 32) ∧ (v = 1 → overflow = 0x80000000#32)

/-- The texts that `parse_ipv6_cidr` treats right: the address is valid, and the number
    is a prefix length itself. -/
def Ipv6CidrOk (inetPton : InetPton) (s : List Char) : Prop :=
  WhenTruncates 128 s fun addr v => inetPton.Valid .inet6 addr ∧ 0 ≤ v ∧ v ≤ 128

theorem parseIpv4Cidr_law_iff (inetPton : InetPton) (overflow : BitVec 32) (text : List Char) :
    CidrLaw (inetPton.Valid .inet) 32 text
        (fun ia netmask => parseIpv4Cidr inetPton overflow text ia netmask false) ↔
      Ipv4CidrOk inetPton overflow (cString text) := by
  by_cases hslash : '/' ∈ cString text
  swap
  · have hidx : (cString text).idxOf? '/' = none := List.idxOf?_eq_none_iff.2 hslash
    have hones : LeadingOnes 32 (toLE 4 0xffffffff) := by
      have hall : toLE 4 0xffffffff = toLE 4 (htonl 0xffffffff#32).toNat := by decide
      rw [hall]
      refine leadingOnes_htonl fun j hj => ?_
      interval_cases j <;> rfl
    refine iff_of_true (cidrLaw_of_address hslash ⟨hones, by rw [length_toLE]⟩ fun ia netmask => ?_)
      (whenTruncates_of_notMem hslash)
    simp only [parseIpv4Cidr, hidx, Bool.false_eq_true, false_and, if_false]
    rfl
  obtain ⟨addr, num, hs, hno⟩ := List.eq_append_cons_of_mem hslash
  by_cases hv : ∃ v, Truncates 32 num v
  swap
  · refine iff_of_true (cidrLaw_of_not_truncates (by norm_num) hs hno hv
      (parseIpv4Cidr_of_not_truncates hs hno hv)) ?_
    rw [hs]
    exact whenTruncates_of_not hno hv
  obtain ⟨v, hv⟩ := hv
  have hparse := @parseIpv4Cidr_of_truncates inetPton overflow text addr num v hs hno hv
  have hlaw := @cidrLaw_iff_of_truncates text addr num v (inetPton.Valid .inet) 32 (by norm_num)
    (fun ia netmask => parseIpv4Cidr inetPton overflow text ia netmask false)
    (inetPton.Valid .inet addr) (ipv4Netmask overflow) hs hno hv
    (fun ia netmask => by
      rw [hparse, parseIpv4, parseFamily_ret, InetPton.Valid]
      split_ifs with hval <;> simp [hval])
    (fun ia netmask => by rw [hparse]) length_ipv4Netmask (fun ia netmask => by rw [hparse])
  rw [hlaw, hs, Ipv4CidrOk, whenTruncates_iff hno hv]
  constructor
  · rintro ⟨hval, hones⟩ hok
    refine ⟨(hval.1 hok).2, fun h1 => ?_⟩
    have hmask := hones hok
    rw [h1] at hmask
    exact overflow_eq_of_leadingOnes hmask
  · intro h
    refine ⟨⟨fun hok => ⟨hok, (h hok).1⟩, And.left⟩, fun hok => ?_⟩
    obtain ⟨⟨h0, hle⟩, h1⟩ := h hok
    exact leadingOnes_ipv4Netmask (by omega) fun hv1 => h1 (by omega)

theorem parseIpv6Cidr_law_iff (inetPton : InetPton) (text : List Char) :
    CidrLaw (inetPton.Valid .inet6) 128 text
        (fun ia netmask => parseIpv6Cidr inetPton text ia netmask false) ↔
      Ipv6CidrOk inetPton (cString text) := by
  by_cases hslash : '/' ∈ cString text
  swap
  · have hidx : (cString text).idxOf? '/' = none := List.idxOf?_eq_none_iff.2 hslash
    have hones : LeadingOnes 128 (List.replicate 16 0xff) := by
      intro k hk
      rw [List.length_replicate] at hk
      have hff : ∀ t < 8, (0xff : Byte).getLsbD (7 - t) = true := by decide
      rw [addrBit, List.getD_eq_getElem?_getD, List.getElem?_replicate, if_pos (by omega),
        Option.getD_some, hff _ (Nat.mod_lt _ (by norm_num)), decide_eq_true (by omega)]
    refine iff_of_true (cidrLaw_of_address hslash ⟨hones, by rw [List.length_replicate]⟩
      fun ia netmask => ?_) (whenTruncates_of_notMem hslash)
    simp only [parseIpv6Cidr, hidx, Bool.false_eq_true, false_and, if_false]
    rfl
  obtain ⟨addr, num, hs, hno⟩ := List.eq_append_cons_of_mem hslash
  by_cases hv : ∃ v, Truncates 128 num v
  swap
  · refine iff_of_true (cidrLaw_of_not_truncates (by norm_num) hs hno hv
      (parseIpv6Cidr_of_not_truncates hs hno hv)) ?_
    rw [hs]
    exact whenTruncates_of_not hno hv
  obtain ⟨v, hv⟩ := hv
  have hparse := @parseIpv6Cidr_of_truncates inetPton text addr num v hs hno hv
  have hlaw := @cidrLaw_iff_of_truncates text addr num v (inetPton.Valid .inet6) 128 (by norm_num)
    (fun ia netmask => parseIpv6Cidr inetPton text ia netmask false) True ipv6Netmask hs hno hv
    (fun ia netmask => by simp [hparse]) (fun ia netmask => by rw [hparse]) length_ipv6Netmask
    (fun ia netmask => by rw [hparse])
  rw [hlaw, hs, Ipv6CidrOk, whenTruncates_iff hno hv]
  constructor
  · rintro ⟨hval, -⟩
    exact hval.1 trivial
  · rintro ⟨hval, h0, hle⟩
    exact ⟨iff_of_true trivial ⟨hval, h0, hle⟩, fun _ => leadingOnes_ipv6Netmask (by omega)⟩

/-- **CIDRs** of both families are parsed as they should be exactly if the number is not
    changed by the truncation, the IPv4 netmask does not overflow, and the IPv6 address
    is valid where its result is lost. -/
theorem parseCidr_law_iff (inetPton : InetPton) (overflow : BitVec 32) (text : List Char) :
    (CidrLaw (inetPton.Valid .inet) 32 text
        (fun ia netmask => parseIpv4Cidr inetPton overflow text ia netmask false) ↔
      Ipv4CidrOk inetPton overflow (cString text)) ∧
    (CidrLaw (inetPton.Valid .inet6) 128 text
        (fun ia netmask => parseIpv6Cidr inetPton text ia netmask false) ↔
      Ipv6CidrOk inetPton (cString text)) :=
  ⟨parseIpv4Cidr_law_iff inetPton overflow text, parseIpv6Cidr_law_iff inetPton text⟩

/-- **The text** is restored on every path. -/
theorem parseCidr_text (inetPton : InetPton) (overflow : BitVec 32) (text : List Char)
    (ia netmask : List Byte) (allowAny : Bool) :
    (parseIpv4Cidr inetPton overflow text ia netmask allowAny).text = text ∧
      (parseIpv6Cidr inetPton text ia netmask allowAny).text = text := by
  have hrestore : ∀ idx, (cString text).idxOf? '/' = some idx →
      (text.set idx nul).set idx '/' = text := by
    intro idx hidx
    have hmem : '/' ∈ cString text := List.isSome_idxOf?.1 (by rw [hidx]; rfl)
    obtain ⟨addr, num, hs, hno⟩ := List.eq_append_cons_of_mem hmem
    rw [hs, idxOf?_slash hno, Option.some_inj] at hidx
    subst hidx
    exact (cString_slash hs).2.2
  unfold parseIpv4Cidr parseIpv6Cidr
  cases hidx : (cString text).idxOf? '/' with
  | none =>
    dsimp only
    split_ifs <;> exact ⟨rfl, rfl⟩
  | some idx =>
    dsimp only
    refine ⟨?_, ?_⟩ <;> split_ifs <;> first | rfl | exact hrestore idx hidx

/-- An `inet_pton` for two texts: `1.2.3.4` is an IPv4 address, `x` is no address. -/
def samplePton : InetPton
  | .inet, s => if s = "1.2.3.4".toList then some [1, 2, 3, 4] else none
  | .inet6, _ => none

/-- `1.2.3.4/4294967296` is parsed with a prefix of 0, and `x/64` successfully. -/
theorem not_parseCidr_law :
    ¬ CidrLaw (samplePton.Valid .inet) 32 "1.2.3.4/4294967296".toList
        (fun ia netmask => parseIpv4Cidr samplePton 0x80000000#32 "1.2.3.4/4294967296".toList
          ia netmask false) ∧
      ¬ CidrLaw (samplePton.Valid .inet6) 128 "x/64".toList
        (fun ia netmask => parseIpv6Cidr samplePton "x/64".toList ia netmask false) := by
  constructor
  · rw [parseIpv4Cidr_law_iff]
    intro h
    have hnum : IsNumeral isCSpace "4294967296".toList (4294967296 : ℕ) :=
      @IsNumeral.plain isCSpace [] "4294967296".toList (by simp) (by simp) (by simp [Char.isDigit])
    have hrange := (h "1.2.3.4".toList "4294967296".toList 4294967296 (by decide) (by decide)
      ⟨⟨hnum, by norm_num, by norm_num⟩, by norm_num⟩ rfl).1
    exact absurd hrange.2 (by norm_num)
  · rw [parseIpv6Cidr_law_iff]
    intro h
    have hnum : IsNumeral isCSpace "64".toList (64 : ℕ) :=
      @IsNumeral.plain isCSpace [] "64".toList (by simp) (by simp) (by simp [Char.isDigit])
    have hvalid := (h "x".toList "64".toList 64 (by decide) (by decide)
      ⟨⟨hnum, by norm_num, by norm_num⟩, by norm_num⟩).1
    exact Bool.false_ne_true hvalid

end Honas

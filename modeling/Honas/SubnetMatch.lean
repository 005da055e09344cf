/-
  The longest prefix that covers a client (`src/subnet_activity.c`).

  Bit `j` of an address counts from the first bit on the wire; an address is
  stored as a little-endian number of its bytes, so the bits of each byte come in
  the other order (`netBit`).  The IPv4 masks keep the first bits of an address
  (`netBit_ipv4Mask`).  The IPv6 masks keep the last bits of the byte that a
  length cuts in two, instead of its first ones (`netBit_ipv6Mask`).

  `matchPrefix_inet`: the lookup of an IPv4 address finds the longest prefix that
  covers it.  `matchPrefix_inet6_iff`: that of an IPv6 address does so exactly if
  the masks do not mislead it.
-/
import Honas.SubnetSpec

namespace Honas

open Bits CString LongestMatch

/-! ## The lookup -/

/-- The search for the prefix of one length, with the entry it finds; `none` if the
    mask is read outside of its table. -/
def SubnetTable.findLength (t : SubnetTable) (addr : InAddr46) (i : ℕ) :
    Option (Option PrefixMatch) :=
  match addr with
  | .inet addr4 => allIpv4SubnetMasks[i]?.map fun mask =>
      lookup PrefixMatch.key t.prefixes (.inet (addr4 &&& mask), i)
  | .inet6 addr6 =>
    if i = 0 then none
    else allIpv6SubnetMasks[i - 1]?.map fun mask =>
      lookup PrefixMatch.key t.prefixes (.inet6 (addr6 &&& mask), i)
  | .other _ => none

/-- The loop over the lengths, from `i` down to the shortest.  The counter is an
    `unsigned int`: after zero it wraps around. -/
def SubnetTable.findLongest (t : SubnetTable) (addr : InAddr46) (shortest : ℕ) :
    ℕ → Option (Option PrefixMatch)
  | 0 =>
    if shortest ≤ 0 then do
      let entry ← t.findLength addr 0
      if entry.isSome then some entry else t.findLength addr (2 ^ 32 - 1)
    else some none
  | i + 1 =>
    if shortest ≤ i + 1 then do
      let entry ← t.findLength addr (i + 1)
      if entry.isSome then some entry else findLongest t addr shortest i
    else some none

/-- `subnet_activity_match_prefix`: the status, and `*pp_result`. -/
def SubnetTable.matchPrefix (t : SubnetTable) (addr : InAddr46) :
    Option (SubnetActivityError × Option PrefixMatch) :=
  match addr with
  | .inet _ => (t.findLongest addr t.shortestIpv4Prefix t.longestIpv4Prefix).map (.ok, ·)
  | .inet6 _ => (t.findLongest addr t.shortestIpv6Prefix t.longestIpv6Prefix).map (.ok, ·)
  | .other _ => some (.invalidArgument, none)

/-- The loop is a search from the longest length to the shortest, if the masks are in
    the table and a search that reaches length zero finds something. -/
theorem SubnetTable.findLongest_eq {t : SubnetTable} {addr : InAddr46} {shortest : ℕ}
    {find : ℕ → Option PrefixMatch} : ∀ {longest : ℕ},
    (∀ i, shortest ≤ i → i ≤ longest → t.findLength addr i = some (find i)) →
    (shortest = 0 → ∃ i ≤ longest, (find i).isSome) →
    t.findLongest addr shortest longest = some (searchDown find shortest longest)
  | 0, hfind, hzero => by
    rw [findLongest, searchDown]
    split_ifs with hs
    · obtain ⟨i, hi, hsome⟩ := hzero (Nat.le_zero.1 hs)
      obtain rfl := Nat.le_zero.1 hi
      rw [hfind 0 hs le_rfl]
      simp only [Option.bind_eq_bind, Option.bind_some, hsome, if_true]
    · rfl
  | i + 1, hfind, hzero => by
    rw [findLongest, searchDown]
    split_ifs with hs
    · rw [hfind (i + 1) hs le_rfl]
      simp only [Option.bind_eq_bind, Option.bind_some]
      cases hf : find (i + 1) with
      | some entry => rfl
      | none =>
        rw [Option.none_or]
        refine findLongest_eq (fun j hj hle => hfind j hj (by omega)) fun h0 => ?_
        obtain ⟨j, hj, hsome⟩ := hzero h0
        refine ⟨j, ?_, hsome⟩
        rcases Nat.le_succ_iff.1 hj with hle | rfl
        · exact hle
        · rw [hf] at hsome
          cases hsome
    · rfl

/-! ## The names of the entities -/

/-- The table with the names of the entities. -/
def SubnetTable.named (t : SubnetTable) (name : PrefixMatch → EntityName)
    (h4 : t.longestIpv4Prefix ≤ 32) (h6 : t.longestIpv6Prefix ≤ 128) : SubnetActivity where
  prefixes := t.prefixes.map fun m => (m.key, name m)
  shortestIpv4Prefix := t.shortestIpv4Prefix
  longestIpv4Prefix := t.longestIpv4Prefix
  shortestIpv6Prefix := t.shortestIpv6Prefix
  longestIpv6Prefix := t.longestIpv6Prefix
  longestIpv4Prefix_le := h4
  longestIpv6Prefix_le := h6

theorem lookup_named (ms : List PrefixMatch) (name : PrefixMatch → EntityName) (k : InAddr46 × ℕ) :
    (ms.map fun m => (m.key, name m)).lookup k = (lookup PrefixMatch.key ms k).map name := by
  induction ms with
  | nil => rfl
  | cons m ms ih =>
    rw [List.map_cons, List.lookup_cons, ih, lookup, lookup, List.find?_cons]
    by_cases hk : k = m.key
    · subst hk
      simp
    · have hne : (k == m.key) = false := by simpa using hk
      have hne' : decide (m.key = k) = false := by simpa using Ne.symm hk
      rw [hne, hne']

section

variable {t : SubnetTable} {name : PrefixMatch → EntityName} {h4 : t.longestIpv4Prefix ≤ 32}
  {h6 : t.longestIpv6Prefix ≤ 128}

theorem named_findLength (addr : InAddr46) (i : ℕ) :
    (t.named name h4 h6).findLength addr i = (t.findLength addr i).map (Option.map name) := by
  have hfind : ∀ address, (t.named name h4 h6).find address i =
      (lookup PrefixMatch.key t.prefixes (address, i)).map name :=
    fun address => lookup_named t.prefixes name (address, i)
  cases addr with
  | inet addr4 =>
    simp only [SubnetActivity.findLength, SubnetTable.findLength, hfind, Option.map_map]
    rfl
  | inet6 addr6 =>
    simp only [SubnetActivity.findLength, SubnetTable.findLength, hfind]
    split_ifs
    · rfl
    · rw [Option.map_map]
      rfl
  | other af => rfl

/-- There is no mask behind the end of the counter. -/
theorem SubnetTable.findLength_wrap (addr : InAddr46) : t.findLength addr (2 ^ 32 - 1) = none := by
  cases addr with
  | inet addr4 =>
    have hlen : allIpv4SubnetMasks.length ≤ 2 ^ 32 - 1 := by decide
    rw [findLength, List.getElem?_eq_none hlen]
    rfl
  | inet6 addr6 =>
    have hlen : allIpv6SubnetMasks.length ≤ 2 ^ 32 - 1 - 1 := by
      rw [allIpv6SubnetMasks, List.length_map, List.length_range]
      omega
    rw [findLength, if_neg (by omega), List.getElem?_eq_none hlen]
    rfl
  | other af => rfl

theorem named_findLongest (addr : InAddr46) (shortest : ℕ) : ∀ i,
    (t.named name h4 h6).findLongest addr shortest i =
      (t.findLongest addr shortest i).map (Option.map name)
  | 0 => by
    rw [SubnetActivity.findLongest, SubnetTable.findLongest, named_findLength]
    split_ifs
    · rcases t.findLength addr 0 with _ | _ | entry
      · rfl
      · simpa using SubnetTable.findLength_wrap addr
      · rfl
    · rfl
  | i + 1 => by
    rw [SubnetActivity.findLongest, SubnetTable.findLongest, named_findLength]
    split_ifs
    · rcases t.findLength addr (i + 1) with _ | _ | entry
      · rfl
      · simp [named_findLongest addr shortest i]
      · rfl
    · rfl

/-- **The lookup of a client** finds the name of the entity of the prefix that is
    found in the table. -/
theorem named_matchPrefix (addr : InAddr46) :
    subnetActivityMatchPrefix addr (t.named name h4 h6) =
      (t.matchPrefix addr).map fun result => result.2.map name := by
  cases addr with
  | inet addr4 =>
    rw [subnetActivityMatchPrefix, SubnetTable.matchPrefix, Option.map_map]
    exact named_findLongest _ _ _
  | inet6 addr6 =>
    rw [subnetActivityMatchPrefix, SubnetTable.matchPrefix, Option.map_map]
    exact named_findLongest _ _ _
  | other af => rfl

end

/-! ## The bits of addresses and masks -/

/-- Bit `j` of an address, in the order of the wire. -/
def netBit {w : ℕ} (x : BitVec w) (j : ℕ) : Bool := x.getLsbD (8 * (j / 8) + (7 - j % 8))

theorem netBit_and {w : ℕ} (x y : BitVec w) (j : ℕ) : netBit (x &&& y) j = (netBit x j && netBit y j) :=
  BitVec.getLsbD_and

/-- The bits of all bytes determine the address. -/
theorem ext_netBit {w : ℕ} (hw : w % 8 = 0) {x y : BitVec w}
    (h : ∀ j < w, netBit x j = netBit y j) : x = y := by
  refine BitVec.eq_of_getLsbD_eq fun i hi => ?_
  have hpos : 8 * ((8 * (i / 8) + (7 - i % 8)) / 8) + (7 - (8 * (i / 8) + (7 - i % 8)) % 8) = i := by
    omega
  have hj := h (8 * (i / 8) + (7 - i % 8)) (by omega)
  rwa [netBit, netBit, hpos] at hj

/-- **An IPv4 mask** keeps the first bits. -/
theorem netBit_ipv4Mask : ∀ i < 33, ∀ j < 32,
    netBit (allIpv4SubnetMasks.getD i 0) j = decide (j < i) := by decide +kernel

/-- The bits that the generated mask of a length keeps: those of its whole bytes, and
    the last ones of the byte that it cuts in two. -/
def ipv6MaskBit (i j : ℕ) : Bool :=
  decide (j < 8 * (i / 8)) || decide (j / 8 = i / 8) && decide (8 - i % 8 ≤ j % 8)

theorem getLsbD_onecharset : ∀ n < 8, ∀ t < 8, (onecharset.getD n 0).getLsbD t = decide (t ≤ n) := by
  decide

/-- **An IPv6 mask**, by its bits. -/
theorem netBit_ipv6Mask (i : ℕ) {j : ℕ} (hj : j < 128) :
    netBit (ipv6SubnetMask i) j = ipv6MaskBit i j := by
  have hpos : 8 * (j / 8) + (7 - j % 8) < 128 := by omega
  have hdiv : (8 * (j / 8) + (7 - j % 8)) / 8 = j / 8 := by omega
  have hmod : (8 * (j / 8) + (7 - j % 8)) % 8 = 7 - j % 8 := by omega
  rw [netBit, ipv6SubnetMask, BitVec.getLsbD_ofNat, testBit_ofLE, decide_eq_true hpos, Bool.true_and,
    bitAt, hdiv, hmod, ipv6MaskBit]
  rcases Nat.lt_trichotomy (j / 8) (i / 8) with hlt | heq | hgt
  · -- a whole byte
    have hin : j < 8 * (i / 8) := by omega
    rw [List.getD_append _ _ _ _ (by rw [List.length_replicate]; exact hlt),
      List.getD_eq_getElem?_getD, List.getElem?_replicate, if_pos hlt, Option.getD_some,
      getLsbD_onecharset 7 (by omega) _ (by omega), decide_eq_true hin,
      decide_eq_true (show 7 - j % 8 ≤ 7 by omega), Bool.true_or]
  · -- the byte that is cut in two
    have hin : ¬ j < 8 * (i / 8) := by omega
    rw [List.getD_append_right _ _ _ _ (by rw [List.length_replicate]; exact heq.ge),
      List.length_replicate, heq, Nat.sub_self, decide_eq_false hin, decide_eq_true rfl,
      Bool.true_and, Bool.false_or]
    split_ifs with hmod
    · rw [List.getD_cons_zero, getLsbD_onecharset _ (by omega) _ (by omega)]
      exact decide_eq_decide.2 (by omega)
    · rw [List.getD_nil, decide_eq_false (by omega)]
      exact BitVec.getLsbD_zero
  · -- a byte behind it
    have hin : ¬ j < 8 * (i / 8) := by omega
    have hne : ¬ j / 8 = i / 8 := by omega
    rw [decide_eq_false hin, decide_eq_false hne, Bool.false_and, Bool.or_false,
      List.getD_append_right _ _ _ _ (by rw [List.length_replicate]; exact hgt.le),
      List.length_replicate]
    obtain ⟨n, hn⟩ : ∃ n, j / 8 - i / 8 = n + 1 := ⟨j / 8 - i / 8 - 1, by omega⟩
    split_ifs
    · rw [hn, List.getD_cons_succ, List.getD_nil]
      exact BitVec.getLsbD_zero
    · rw [List.getD_nil]
      exact BitVec.getLsbD_zero

/-! ## Covering -/

/-- The leading bits of an address are those of the prefix. -/
def PrefixMatch.Covers (m : PrefixMatch) (addr : InAddr46) : Prop :=
  match m.address, addr with
  | .inet p, .inet a => ∀ j < m.length, netBit p j = netBit a j
  | .inet6 p, .inet6 a => ∀ j < m.length, netBit p j = netBit a j
  | _, _ => False

/-- The host bits of an address are zero. -/
def ZeroHostBits {w : ℕ} (p : BitVec w) (length : ℕ) : Prop := ∀ j < w, length ≤ j → netBit p j = false

/-- A prefix is what a mask leaves of an address, bit by bit. -/
theorem eq_and_iff {w : ℕ} (hw : w % 8 = 0) {p a mask : BitVec w} {bits : ℕ → Bool}
    (hmask : ∀ j < w, netBit mask j = bits j) :
    p = a &&& mask ↔ ∀ j < w, netBit p j = (netBit a j && bits j) := by
  constructor
  · rintro rfl j hj
    rw [netBit_and, hmask j hj]
  · intro h
    refine ext_netBit hw fun j hj => ?_
    rw [h j hj, netBit_and, hmask j hj]

/-- With zero host bits, the first bits decide. -/
theorem covers_iff {w length : ℕ} {p a : BitVec w} (hl : length ≤ w) (hz : ZeroHostBits p length) :
    (∀ j < length, netBit p j = netBit a j) ↔
      ∀ j < w, netBit p j = (netBit a j && decide (j < length)) := by
  constructor
  · intro h j hj
    by_cases hlt : j < length
    · rw [h j hlt, decide_eq_true hlt, Bool.and_true]
    · rw [hz j hj (not_lt.1 hlt), decide_eq_false hlt, Bool.and_false]
  · intro h j hlt
    rw [h j (by omega), decide_eq_true hlt, Bool.and_true]

/-! ## The longest prefix -/

section

variable {t : SubnetTable} {regs : List PrefixMatch}

/-- **The search** finds the longest registered prefix that is what the mask of its
    length leaves of the address. -/
theorem SubnetTable.Holds.findLongest (h : t.Holds regs) {w : ℕ} (family : BitVec w → InAddr46)
    (a : BitVec w) (mask : ℕ → BitVec w) {lo hi : ℕ}
    (hfind : ∀ i, lo ≤ i → i ≤ hi → t.findLength (family a) i =
      some (lookup PrefixMatch.key t.prefixes (family (a &&& mask i), i)))
    (hb : ∀ m ∈ regs, ∀ p, m.address = family p → lo ≤ m.length ∧ m.length ≤ hi)
    (hzero : lo = 0 → ∃ i ≤ hi, (lookup PrefixMatch.key regs (family (a &&& mask i), i)).isSome) :
    ∃ r, t.findLongest (family a) lo hi = some r ∧ IsLongest PrefixMatch.key PrefixMatch.length
      (fun m => m.key = (family (a &&& mask m.length), m.length)) regs r := by
  refine ⟨_, findLongest_eq (fun i h1 h2 => by rw [hfind i h1 h2, h.lookup_eq]) hzero,
    isLongest_searchDown (fun i m hm => (Prod.mk.inj hm).2) fun m hm hkey => ?_⟩
  exact hb m hm _ (Prod.mk.inj hkey).1

theorem SubnetTable.Holds.ne_other (h : t.Holds regs) {m : PrefixMatch} (hm : m ∈ regs) (af : ℕ) :
    m.address ≠ .other af := by
  intro haf
  have hv := h.valid m hm
  rw [haf] at hv
  cases hv

theorem SubnetTable.Holds.inet_bounds (h : t.Holds regs) {m : PrefixMatch} (hm : m ∈ regs)
    {p : BitVec 32} (hp : m.address = .inet p) :
    t.shortestIpv4Prefix ≤ m.length ∧ m.length ≤ t.longestIpv4Prefix ∧ m.length ≤ 32 := by
  have hmem : m.length ∈ regs.filterMap PrefixMatch.inetLength :=
    List.mem_filterMap.2 ⟨m, hm, by rw [PrefixMatch.inetLength, hp]⟩
  have hv := h.valid m hm
  rw [hp, InAddr46.validLength_inet] at hv
  exact ⟨h.bounds4.le _ hmem, h.bounds4.ge _ hmem, by omega⟩

theorem SubnetTable.Holds.inet6_bounds (h : t.Holds regs) {m : PrefixMatch} (hm : m ∈ regs)
    {p : BitVec 128} (hp : m.address = .inet6 p) :
    t.shortestIpv6Prefix ≤ m.length ∧ m.length ≤ t.longestIpv6Prefix ∧ m.length ≤ 128 := by
  have hmem : m.length ∈ regs.filterMap PrefixMatch.inet6Length :=
    List.mem_filterMap.2 ⟨m, hm, by rw [PrefixMatch.inet6Length, hp]⟩
  have hv := h.valid m hm
  rw [hp, InAddr46.validLength_inet6] at hv
  exact ⟨h.bounds6.le _ hmem, h.bounds6.ge _ hmem, by omega⟩

/-- The longest length that is registered, if there is one. -/
theorem SubnetTable.Holds.longest_le (h : t.Holds regs) :
    t.longestIpv4Prefix ≤ 32 ∧ t.longestIpv6Prefix ≤ 128 := by
  constructor
  · refine h.bounds4.hi_le fun l hl => ?_
    obtain ⟨⟨addr, length, entity⟩, hm, hlen⟩ := List.mem_filterMap.1 hl
    cases addr with
    | inet p =>
      rw [← Option.some.inj hlen]
      exact (h.inet_bounds hm rfl).2.2
    | _ => cases hlen
  · refine h.bounds6.hi_le fun l hl => ?_
    obtain ⟨⟨addr, length, entity⟩, hm, hlen⟩ := List.mem_filterMap.1 hl
    cases addr with
    | inet6 p =>
      rw [← Option.some.inj hlen]
      exact (h.inet6_bounds hm rfl).2.2
    | _ => cases hlen

/-- A prefix that is left by the mask covers the address, and the other way round. -/
theorem key_eq_iff_covers_inet {m : PrefixMatch} (hl : ∀ p, m.address = .inet p → m.length ≤ 32)
    (hz : ∀ p, m.address = .inet p → ZeroHostBits p m.length) (a : BitVec 32) :
    m.key = (.inet (a &&& allIpv4SubnetMasks.getD m.length 0), m.length) ↔ m.Covers (.inet a) := by
  obtain ⟨addr, length, entity⟩ := m
  cases addr with
  | inet p =>
    have hle : length ≤ 32 := hl p rfl
    have hkey : PrefixMatch.key ⟨.inet p, length, entity⟩ =
        (.inet (a &&& allIpv4SubnetMasks.getD length 0), length) ↔
          p = a &&& allIpv4SubnetMasks.getD length 0 := by
      simp [PrefixMatch.key]
    rw [hkey, eq_and_iff (by decide) (netBit_ipv4Mask length (by omega))]
    exact (covers_iff hle (hz p rfl)).symm
  | inet6 p => exact iff_of_false (fun h => nomatch (Prod.mk.inj h).1) id
  | other af => exact iff_of_false (fun h => nomatch (Prod.mk.inj h).1) id

/-- A search that reaches length zero finds the prefix that covers every address. -/
theorem SubnetTable.Holds.inet_zero (h : t.Holds regs)
    (hz : ∀ m ∈ regs, ∀ p, m.address = .inet p → ZeroHostBits p m.length) (a : BitVec 32)
    (h0 : t.shortestIpv4Prefix = 0) : ∃ i ≤ t.longestIpv4Prefix,
      (lookup PrefixMatch.key regs (.inet (a &&& allIpv4SubnetMasks.getD i 0), i)).isSome := by
  have hmem := (h.bounds4.lo_eq_zero (by decide)).1 h0
  obtain ⟨⟨addr, length, entity⟩, hm, hlen⟩ := List.mem_filterMap.1 hmem
  cases addr with
  | inet p =>
    obtain rfl : length = 0 := Option.some.inj hlen
    have hcov : PrefixMatch.Covers ⟨.inet p, 0, entity⟩ (.inet a) :=
      fun j hj => absurd hj (Nat.not_lt_zero j)
    have hkey := (key_eq_iff_covers_inet (fun p hp => (h.inet_bounds hm hp).2.2) (hz _ hm) a).2 hcov
    refine ⟨0, Nat.zero_le _, Option.isSome_iff_ne_none.2 fun hnone => ?_⟩
    exact lookup_eq_none.1 hnone _ hm hkey
  | _ => cases hlen

/-- A table whose IPv4 prefixes have no host bits finds the longest that covers an address. -/
theorem SubnetTable.Holds.longest_inet (h : t.Holds regs)
    (hz : ∀ m ∈ regs, ∀ p, m.address = .inet p → ZeroHostBits p m.length) (addr4 : BitVec 32) :
    ∃ r, t.matchPrefix (.inet addr4) = some (.ok, r) ∧
      IsLongest PrefixMatch.key PrefixMatch.length (fun m => m.Covers (.inet addr4)) regs r := by
  have hmask : ∀ i, t.shortestIpv4Prefix ≤ i → i ≤ t.longestIpv4Prefix →
      t.findLength (.inet addr4) i = some (lookup PrefixMatch.key t.prefixes
        (.inet (addr4 &&& allIpv4SubnetMasks.getD i 0), i)) := by
    intro i _ hi
    have hlt : i < allIpv4SubnetMasks.length := Nat.lt_succ_of_le (hi.trans h.longest_le.1)
    rw [SubnetTable.findLength, List.getD_eq_getElem?_getD, List.getElem?_eq_getElem hlt]
    rfl
  obtain ⟨r, hr, hlong⟩ := h.findLongest .inet addr4 _ hmask
    (fun m hm p hp => ⟨(h.inet_bounds hm hp).1, (h.inet_bounds hm hp).2.1⟩)
    (h.inet_zero hz addr4)
  refine ⟨r, by rw [SubnetTable.matchPrefix, hr]; rfl, hlong.congr fun m hm => ?_⟩
  exact key_eq_iff_covers_inet (fun p hp => (h.inet_bounds hm hp).2.2) (hz m hm) addr4

end

section

variable {inetPton : List Byte → Option (BitVec 32)} {inetPton6 : List Byte → Option (BitVec 128)}

/-- **The longest IPv4 prefix** that covers an address is found, in every table whose
    IPv4 prefixes have no host bits. -/
theorem matchPrefix_inet {events : List (JsonEvent × Bool)} {t : SubnetTable}
    {status : SubnetActivityError}
    (h : subnetActivityInitialize inetPton inetPton6 events = some (t, status))
    (hz : ∀ m ∈ registrations inetPton inetPton6 (subnetSpecInit, true) events,
      ∀ p, m.address = .inet p → ZeroHostBits p m.length) (addr4 : BitVec 32) :
    ∃ r, t.matchPrefix (.inet addr4) = some (.ok, r) ∧
      IsLongest PrefixMatch.key PrefixMatch.length (fun m => m.Covers (.inet addr4))
        (registrations inetPton inetPton6 (subnetSpecInit, true) events) r := by
  have hold := subnetActivityInitialize_holds h
  exact hold.longest_inet hz addr4

end

/-- The events of a file that defines one entity with the given prefixes. -/
def oneEntity (prefixes : List (List Byte × BitVec 64)) : List (JsonEvent × Bool) :=
  let entityEvents : List JsonEvent :=
    [.startMap, .mapKey (ascii "subnet_activity"), .startArray, .startMap,
      .mapKey (ascii "entity"), .string (ascii "campus"), .mapKey (ascii "prefixes"), .startArray]
  let prefixEvents : List JsonEvent :=
    prefixes.flatMap fun p => [.startMap, .mapKey p.1, .integer p.2, .endMap]
  let endEvents : List JsonEvent := [.endArray, .endMap, .endArray, .endMap]
  (entityEvents ++ prefixEvents ++ endEvents).map fun event => (event, true)

/-- `inet_pton` for the texts of a list. -/
def ptonOf {w : ℕ} (addresses : List (List Byte × BitVec w)) (src : List Byte) :
    Option (BitVec w) := addresses.lookup src

/-- The name of its entity. -/
def campusName : List Byte := pad 128 (ascii "campus")

/-- The addresses 10.0.0.0 and 10.1.0.0, as `s_addr` has them. -/
def tenPton : List Byte → Option (BitVec 32) :=
  ptonOf [(ascii "10.0.0.0", 10), (ascii "10.1.0.0", 0x10a)]

/-- A file with the prefixes 10.0.0.0/8 and 10.1.0.0/16. -/
def tenEvents : List (JsonEvent × Bool) :=
  oneEntity [(ascii "10.0.0.0", 8), (ascii "10.1.0.0", 16)]

/-- What is registered for it. -/
def tenPrefixes : List PrefixMatch := [⟨.inet 10, 8, some 0⟩, ⟨.inet 0x10a, 16, some 0⟩]

theorem tenEvents_initialize : subnetActivityInitialize tenPton (fun _ => none) tenEvents =
    some (⟨[campusName], tenPrefixes, 2, 8, 16, 128, 0⟩, .ok) := by decide +kernel

theorem tenEvents_registrations :
    registrations tenPton (fun _ => none) (subnetSpecInit, true) tenEvents = tenPrefixes := by
  decide +kernel

theorem tenPrefixes_zeroHostBits :
    ∀ m ∈ tenPrefixes, ∀ p, m.address = .inet p → ZeroHostBits p m.length := by
  intro m hm p hp
  unfold ZeroHostBits
  obtain rfl | hm := List.mem_cons.1 hm
  · obtain rfl := InAddr46.inet.inj hp
    decide
  · obtain rfl := List.mem_singleton.1 hm
    obtain rfl := InAddr46.inet.inj hp
    decide

/-- Both prefixes cover 10.1.2.3, and the longer one is found; for 10.2.0.0 it is the
    shorter one. -/
theorem matchPrefix_inet_nested :
    ∃ t, subnetActivityInitialize tenPton (fun _ => none) tenEvents = some (t, .ok) ∧
      (∀ addr4, ∃ r, t.matchPrefix (.inet addr4) = some (.ok, r) ∧
        IsLongest PrefixMatch.key PrefixMatch.length (fun m => m.Covers (.inet addr4))
          (registrations tenPton (fun _ => none) (subnetSpecInit, true) tenEvents) r) ∧
      t.matchPrefix (.inet 0x0302010a) = some (.ok, some ⟨.inet 0x10a, 16, some 0⟩) ∧
      t.matchPrefix (.inet 0x020a) = some (.ok, some ⟨.inet 10, 8, some 0⟩) := by
  refine ⟨_, tenEvents_initialize, fun addr4 => matchPrefix_inet tenEvents_initialize ?_ addr4,
    by decide +kernel, by decide +kernel⟩
  rw [tenEvents_registrations]
  exact tenPrefixes_zeroHostBits

/-! ## The IPv6 masks -/

/-- The generated mask leaves the prefix of an address: the bits that it keeps are
    those of the prefix, and the other bits of the prefix are zero. -/
def PrefixMatch.Selected (m : PrefixMatch) (addr : InAddr46) : Prop :=
  match m.address, addr with
  | .inet6 p, .inet6 a => ∀ j < 128, netBit p j = (netBit a j && ipv6MaskBit m.length j)
  | _, _ => False

/-- The masks do not mislead the search for an address: the longest prefix that covers
    it is selected, and a prefix that is selected but does not cover it is shorter than
    one that does. -/
def MasksAgree (regs : List PrefixMatch) (addr : InAddr46) : Prop :=
  ∀ m ∈ regs,
    (m.Covers addr → (∀ m' ∈ regs, m'.Covers addr → m'.length ≤ m.length) → m.Selected addr) ∧
      (m.Selected addr → m.Covers addr ∨ ∃ m' ∈ regs, m'.Covers addr ∧ m.length < m'.length)

section

variable {regs : List PrefixMatch}

theorem key_eq_iff_selected (m : PrefixMatch) (a : BitVec 128) :
    m.key = (.inet6 (a &&& ipv6SubnetMask m.length), m.length) ↔ m.Selected (.inet6 a) := by
  obtain ⟨addr, length, entity⟩ := m
  cases addr with
  | inet6 p =>
    have hkey : PrefixMatch.key ⟨.inet6 p, length, entity⟩ =
        (.inet6 (a &&& ipv6SubnetMask length), length) ↔ p = a &&& ipv6SubnetMask length := by
      simp [PrefixMatch.key]
    rw [hkey, eq_and_iff (by decide) fun j hj => netBit_ipv6Mask length hj]
    exact Iff.rfl
  | inet p => exact iff_of_false (fun h => nomatch (Prod.mk.inj h).1) id
  | other af => exact iff_of_false (fun h => nomatch (Prod.mk.inj h).1) id

/-- A prefix covers an IPv6 address if the address without its host bits is that of
    the prefix. -/
theorem covers_inet6_iff {m : PrefixMatch} {a : BitVec 128}
    (hl : ∀ p, m.address = .inet6 p → m.length ≤ 128)
    (hz : ∀ p, m.address = .inet6 p → ZeroHostBits p m.length) :
    m.Covers (.inet6 a) ↔ ∃ p, m.address = .inet6 p ∧
      ∀ j < 128, netBit p j = (netBit a j && decide (j < m.length)) := by
  obtain ⟨addr, length, entity⟩ := m
  cases addr with
  | inet6 p =>
    have hiff : PrefixMatch.Covers ⟨.inet6 p, length, entity⟩ (.inet6 a) ↔
        ∀ j < 128, netBit p j = (netBit a j && decide (j < length)) :=
      covers_iff (hl p rfl) (hz p rfl)
    rw [hiff]
    exact ⟨fun h => ⟨p, rfl, h⟩, fun ⟨q, hq, h⟩ => InAddr46.inet6.inj hq ▸ h⟩
  | inet p => exact iff_of_false id fun ⟨q, hq, _⟩ => nomatch hq
  | other af => exact iff_of_false id fun ⟨q, hq, _⟩ => nomatch hq

/-- **When the longest selected prefix is the longest one that covers the address.** -/
theorem isLongest_covers_iff
    (hl : ∀ m ∈ regs, ∀ p, m.address = .inet6 p → m.length ≤ 128)
    (hz : ∀ m ∈ regs, ∀ p, m.address = .inet6 p → ZeroHostBits p m.length) {a : BitVec 128}
    {r : Option PrefixMatch}
    (hr : IsLongest PrefixMatch.key PrefixMatch.length (fun m => m.Selected (.inet6 a)) regs r) :
    IsLongest PrefixMatch.key PrefixMatch.length (fun m => m.Covers (.inet6 a)) regs r ↔
      MasksAgree regs (.inet6 a) := by
  have hkey : ∀ {m m' : PrefixMatch}, m.key = m'.key → m.address = m'.address ∧ m.length = m'.length :=
    fun h => Prod.mk.inj h
  refine isLongest_iff ?_ ?_ ?_ ?_ hr
  · intro m hm m' hm' hs hs' hlen
    rw [← key_eq_iff_selected] at hs hs'
    rw [hs, hs', hlen]
  · intro m hm m' hm' hc hc' hlen
    obtain ⟨p, hp, hbits⟩ := (covers_inet6_iff (hl m hm) (hz m hm)).1 hc
    obtain ⟨p', hp', hbits'⟩ := (covers_inet6_iff (hl m' hm') (hz m' hm')).1 hc'
    have heq : p = p' := ext_netBit (by decide) fun j hj => by
      rw [hbits j hj, hbits' j hj, hlen]
    rw [PrefixMatch.key, PrefixMatch.key, hp, hp', heq, hlen]
  · intro m hm m' hm' h hs
    rw [← key_eq_iff_selected] at hs ⊢
    rw [← h, hs, (hkey h).2]
  · intro m hm m' hm' h hc
    rw [covers_inet6_iff (hl m hm) (hz m hm)] at hc
    rw [covers_inet6_iff (hl m' hm') (hz m' hm')]
    rwa [← (hkey h).1, ← (hkey h).2]

/-- Prefixes of whole bytes are looked up as they should. -/
theorem masksAgree_of_bytes (hl : ∀ m ∈ regs, ∀ p, m.address = .inet6 p → m.length ≤ 128)
    (hz : ∀ m ∈ regs, ∀ p, m.address = .inet6 p → ZeroHostBits p m.length)
    (h8 : ∀ m ∈ regs, ∀ p, m.address = .inet6 p → m.length % 8 = 0) (a : BitVec 128) :
    MasksAgree regs (.inet6 a) := by
  have hiff : ∀ m ∈ regs, m.Covers (.inet6 a) ↔ m.Selected (.inet6 a) := by
    intro m hm
    rw [covers_inet6_iff (hl m hm) (hz m hm)]
    have hl8 := h8 m hm
    obtain ⟨addr, length, entity⟩ := m
    cases addr with
    | inet6 p =>
      have hbit : ∀ j, ipv6MaskBit length j = decide (j < length) := by
        intro j
        have hmod : length % 8 = 0 := hl8 p rfl
        rw [ipv6MaskBit, ← Bool.decide_and, ← Bool.decide_or]
        exact decide_eq_decide.2 (by omega)
      simp only [PrefixMatch.Selected, hbit]
      exact ⟨fun ⟨q, hq, h⟩ => InAddr46.inet6.inj hq ▸ h, fun h => ⟨p, rfl, h⟩⟩
    | inet p => exact iff_of_false (fun ⟨q, hq, _⟩ => nomatch hq) id
    | other af => exact iff_of_false (fun ⟨q, hq, _⟩ => nomatch hq) id
  exact fun m hm => ⟨fun hc _ => (hiff m hm).1 hc, fun hs => Or.inl ((hiff m hm).2 hs)⟩

end

section

variable {inetPton : List Byte → Option (BitVec 32)} {inetPton6 : List Byte → Option (BitVec 128)}

/-- **The longest IPv6 prefix** that covers an address is found exactly if the masks do
    not mislead the search. -/
theorem matchPrefix_inet6_iff {events : List (JsonEvent × Bool)} {t : SubnetTable}
    {status : SubnetActivityError}
    (h : subnetActivityInitialize inetPton inetPton6 events = some (t, status))
    (hz : ∀ m ∈ registrations inetPton inetPton6 (subnetSpecInit, true) events,
      ∀ p, m.address = .inet6 p → 1 ≤ m.length ∧ ZeroHostBits p m.length) (addr6 : BitVec 128) :
    (∃ r, t.matchPrefix (.inet6 addr6) = some (.ok, r) ∧
      IsLongest PrefixMatch.key PrefixMatch.length (fun m => m.Covers (.inet6 addr6))
        (registrations inetPton inetPton6 (subnetSpecInit, true) events) r) ↔
      MasksAgree (registrations inetPton inetPton6 (subnetSpecInit, true) events)
        (.inet6 addr6) := by
  have hold := subnetActivityInitialize_holds h
  have hpos : 0 < t.shortestIpv6Prefix := by
    refine Nat.pos_of_ne_zero fun h0 => ?_
    have hmem := (hold.bounds6.lo_eq_zero (by decide)).1 h0
    obtain ⟨⟨addr, length, entity⟩, hm, hlen⟩ := List.mem_filterMap.1 hmem
    cases addr with
    | inet6 p =>
      obtain rfl : length = 0 := Option.some.inj hlen
      exact absurd (hz _ hm p rfl).1 (Nat.not_succ_le_zero 0)
    | _ => cases hlen
  have hmask : ∀ i, t.shortestIpv6Prefix ≤ i → i ≤ t.longestIpv6Prefix →
      t.findLength (.inet6 addr6) i = some (lookup PrefixMatch.key t.prefixes
        (.inet6 (addr6 &&& ipv6SubnetMask i), i)) := by
    intro i hlo hi
    have hlt : i - 1 < 128 := by
      have := hold.longest_le.2
      omega
    rw [SubnetTable.findLength, if_neg (by omega), allIpv6SubnetMasks, List.getElem?_map,
      List.getElem?_range hlt, Option.map_some, Option.map_some, Nat.sub_add_cancel (by omega)]
  obtain ⟨r, hr, hlong⟩ := hold.findLongest .inet6 addr6 _ hmask
    (fun m hm p hp => ⟨(hold.inet6_bounds hm hp).1, (hold.inet6_bounds hm hp).2.1⟩)
    (fun h0 => absurd h0 hpos.ne')
  have hiff := isLongest_covers_iff (fun m hm p hp => (hold.inet6_bounds hm hp).2.2)
    (fun m hm p hp => (hz m hm p hp).2) (hlong.congr fun m _ => key_eq_iff_selected m addr6)
  have hmatch : t.matchPrefix (.inet6 addr6) = some (.ok, r) := by
    rw [SubnetTable.matchPrefix, hr]
    rfl
  rw [← hiff]
  constructor
  · rintro ⟨r', hr', hcov⟩
    rw [hmatch] at hr'
    rwa [(Prod.mk.inj (Option.some.inj hr')).2]
  · exact fun hcov => ⟨r, hmatch, hcov⟩

end

/-- The prefixes 2001:db8::/32 and 2001:db8:1::/48 are of whole bytes, so the longest one
    is found for every address. -/
theorem matchPrefix_inet6_iff_bytes : ∃ t, subnetActivityInitialize (fun _ => none)
      (ptonOf [(ascii "2001:db8::", 0xb80d0120), (ascii "2001:db8:1::", 0x0100b80d0120)])
      (oneEntity [(ascii "2001:db8::", 32), (ascii "2001:db8:1::", 48)]) = some (t, .ok) ∧
    ∀ addr6, ∃ r, t.matchPrefix (.inet6 addr6) = some (.ok, r) ∧
      IsLongest PrefixMatch.key PrefixMatch.length (fun m => m.Covers (.inet6 addr6))
        [⟨.inet6 0xb80d0120, 32, some 0⟩, ⟨.inet6 0x0100b80d0120, 48, some 0⟩] r := by
  have hregs : registrations (fun _ => none)
      (ptonOf [(ascii "2001:db8::", 0xb80d0120), (ascii "2001:db8:1::", 0x0100b80d0120)])
      (subnetSpecInit, true) (oneEntity [(ascii "2001:db8::", 32), (ascii "2001:db8:1::", 48)]) =
        [⟨.inet6 0xb80d0120, 32, some 0⟩, ⟨.inet6 0x0100b80d0120, 48, some 0⟩] := by
    decide +kernel
  have hrun : subnetActivityInitialize (fun _ => none)
      (ptonOf [(ascii "2001:db8::", 0xb80d0120), (ascii "2001:db8:1::", 0x0100b80d0120)])
      (oneEntity [(ascii "2001:db8::", 32), (ascii "2001:db8:1::", 48)]) =
        some (⟨[campusName], [⟨.inet6 0xb80d0120, 32, some 0⟩,
          ⟨.inet6 0x0100b80d0120, 48, some 0⟩], 2, 32, 0, 32, 48⟩, .ok) := by
    decide +kernel
  have hbytes : ∀ m ∈ [(⟨.inet6 0xb80d0120, 32, some 0⟩ : PrefixMatch),
      ⟨.inet6 0x0100b80d0120, 48, some 0⟩], ∀ p, m.address = .inet6 p →
        (1 ≤ m.length ∧ ZeroHostBits p m.length) ∧ m.length ≤ 128 ∧ m.length % 8 = 0 := by
    intro m hm p hp
    unfold ZeroHostBits
    obtain rfl | hm := List.mem_cons.1 hm
    · obtain rfl := InAddr46.inet6.inj hp
      decide
    · obtain rfl := List.mem_singleton.1 hm
      obtain rfl := InAddr46.inet6.inj hp
      decide
  refine ⟨_, hrun, fun addr6 => ?_⟩
  have hiff := matchPrefix_inet6_iff hrun
    (by rw [hregs]; exact fun m hm p hp => (hbytes m hm p hp).1) addr6
  rw [hregs] at hiff
  exact hiff.2 (masksAgree_of_bytes (fun m hm p hp => (hbytes m hm p hp).2.1)
    (fun m hm p hp => (hbytes m hm p hp).1.2) (fun m hm p hp => (hbytes m hm p hp).2.2) addr6)

/-- The prefix 2001:db8:8000::/33 covers 2001:db8:8000::1, but its mask keeps the last
    bit of the fifth byte instead of the first one. -/
theorem matchPrefix_inet6_missed : ∃ t, subnetActivityInitialize (fun _ => none)
      (ptonOf [(ascii "2001:db8:8000::", 0x80b80d0120)]) (oneEntity [(ascii "2001:db8:8000::", 33)]) =
        some (t, .ok) ∧
    (∀ m ∈ registrations (fun _ => none) (ptonOf [(ascii "2001:db8:8000::", 0x80b80d0120)])
        (subnetSpecInit, true) (oneEntity [(ascii "2001:db8:8000::", 33)]),
      ∀ p, m.address = .inet6 p → 1 ≤ m.length ∧ ZeroHostBits p m.length) ∧
    ¬ ∃ r, t.matchPrefix (.inet6 (0x1#128 <<< 120 ||| 0x80b80d0120)) = some (.ok, r) ∧
      IsLongest PrefixMatch.key PrefixMatch.length
        (fun m => m.Covers (.inet6 (0x1#128 <<< 120 ||| 0x80b80d0120)))
        (registrations (fun _ => none) (ptonOf [(ascii "2001:db8:8000::", 0x80b80d0120)])
          (subnetSpecInit, true) (oneEntity [(ascii "2001:db8:8000::", 33)])) r := by
  have hregs : registrations (fun _ => none) (ptonOf [(ascii "2001:db8:8000::", 0x80b80d0120)])
      (subnetSpecInit, true) (oneEntity [(ascii "2001:db8:8000::", 33)]) =
        [⟨.inet6 0x80b80d0120, 33, some 0⟩] := by decide +kernel
  have hrun : subnetActivityInitialize (fun _ => none)
      (ptonOf [(ascii "2001:db8:8000::", 0x80b80d0120)]) (oneEntity [(ascii "2001:db8:8000::", 33)]) =
        some (⟨[campusName], [⟨.inet6 0x80b80d0120, 33, some 0⟩], 1, 32, 0, 33, 33⟩, .ok) := by
    decide +kernel
  refine ⟨_, hrun, ?_, ?_⟩
  · rw [hregs]
    intro m hm p hp
    obtain rfl := List.mem_singleton.1 hm
    obtain rfl := InAddr46.inet6.inj hp
    unfold ZeroHostBits
    decide
  · rw [hregs]
    rintro ⟨r, hr, hlong⟩
    have hnone : SubnetTable.matchPrefix
        ⟨[campusName], [⟨.inet6 0x80b80d0120, 33, some 0⟩], 1, 32, 0, 33, 33⟩
        (.inet6 (0x1#128 <<< 120 ||| 0x80b80d0120)) = some (.ok, none) := by decide +kernel
    rw [hnone] at hr
    obtain rfl := (Prod.mk.inj (Option.some.inj hr)).2
    refine hlong _ (List.mem_singleton_self _) ?_
    change ∀ j < 33, netBit (0x80b80d0120#128) j = netBit (0x1#128 <<< 120 ||| 0x80b80d0120#128) j
    decide

end Honas

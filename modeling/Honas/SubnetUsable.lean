/-
  Which subnet tables can be used.

  The lookup of an address asks for one prefix of every length, from the longest
  registered length to the shortest (`askInet`, `askInet6`).  A prefix with host bits
  is never asked for, an IPv6 prefix of length zero has no mask, and the counter does
  not stop at zero.

  `usable_iff`: every lookup ends with all masks inside of their tables, and finds the
  addresses that are written in the prefixes, exactly if a prefix is found for each of
  those addresses, and for every address of a family that has a prefix of length zero.
-/
import Honas.SubnetMatch

namespace Honas

open Bits CString LongestMatch

/-! ## What the lookup asks for -/

/-- The prefix that is asked for at a length. -/
def askInet (a : BitVec 32) (i : ℕ) : InAddr46 × ℕ :=
  (.inet (a &&& allIpv4SubnetMasks.getD i 0), i)

/-- The prefix that is asked for at a length; at zero there is none. -/
def askInet6 (a : BitVec 128) (i : ℕ) : InAddr46 × ℕ :=
  if i = 0 then (.other 0, 0) else (.inet6 (a &&& ipv6SubnetMask i), i)

/-- A prefix is asked for when an address is looked up: an IPv4 prefix if it covers the
    address and has no host bits, an IPv6 prefix if it has a mask that leaves it of the
    address. -/
def PrefixMatch.AskedFor (m : PrefixMatch) (addr : InAddr46) : Prop :=
  match m.address, addr with
  | .inet p, .inet _ => m.Covers addr ∧ ZeroHostBits p m.length
  | .inet6 _, .inet6 _ => 1 ≤ m.length ∧ m.Selected addr
  | _, _ => False

/-- `af` of two addresses is the same. -/
def InAddr46.sameFamily : InAddr46 → InAddr46 → Bool
  | .inet _, .inet _ => true
  | .inet6 _, .inet6 _ => true
  | _, _ => false

/-- The family of an address has a prefix of length zero. -/
def hasLengthZero (regs : List PrefixMatch) (addr : InAddr46) : Bool :=
  regs.any fun m => m.length = 0 && m.address.sameFamily addr

/-- Every lookup ends with all masks inside of their tables, and that of an address
    that is written in a prefix finds a prefix that covers it. -/
def SubnetTable.Usable (t : SubnetTable) (regs : List PrefixMatch) : Prop :=
  (∀ addr, (t.matchPrefix addr).isSome) ∧
    ∀ m ∈ regs, ∃ r, t.matchPrefix m.address = some (.ok, some r) ∧ r.Covers m.address

/-- In a family with a prefix of length zero, some prefix is asked for at every address;
    and the longest prefix that is asked for at the address of a prefix covers it. -/
def LookupsFind (regs : List PrefixMatch) : Prop :=
  (∀ addr, hasLengthZero regs addr → ∃ r ∈ regs, r.AskedFor addr) ∧
    ∀ m ∈ regs, ∃ r ∈ regs, r.AskedFor m.address ∧ r.Covers m.address ∧
      ∀ r' ∈ regs, r'.AskedFor m.address → r'.length ≤ r.length

theorem askInet_length {a : BitVec 32} {i : ℕ} {m : PrefixMatch} (h : m.key = askInet a i) :
    m.length = i := (Prod.mk.inj h).2

theorem askInet6_length {a : BitVec 128} {i : ℕ} {m : PrefixMatch} (h : m.key = askInet6 a i) :
    m.length = i := by
  rw [askInet6] at h
  split_ifs at h with hi
  · rw [hi]
    exact (Prod.mk.inj h).2
  · exact (Prod.mk.inj h).2

/-! ## The search -/

/-- **The loop** is a search from the longest length to the shortest.  One that reaches
    zero and finds nothing leaves the table. -/
theorem SubnetTable.findLongest_eq_searchDown {t : SubnetTable} {addr : InAddr46} {lo : ℕ}
    {find : ℕ → Option PrefixMatch} : ∀ {hi : ℕ},
    (∀ i, lo ≤ i → i ≤ hi → t.findLength addr i = some (find i) ∨
      i = 0 ∧ t.findLength addr i = none ∧ find i = none) →
    t.findLongest addr lo hi =
      if lo = 0 then (searchDown find lo hi).map some else some (searchDown find lo hi)
  | 0, hfind => by
    rw [findLongest, searchDown]
    by_cases hlo : lo = 0
    · subst hlo
      rw [if_pos le_rfl, if_pos rfl, if_pos le_rfl]
      rcases hfind 0 le_rfl le_rfl with h | ⟨-, h, hnone⟩
      · rw [h]
        cases find 0 with
        | some entry => rfl
        | none => exact findLength_wrap addr
      · rw [h, hnone]
        rfl
    · rw [if_neg (by omega), if_neg hlo, if_neg (by omega)]
  | hi + 1, hfind => by
    rw [findLongest, searchDown]
    by_cases hlo : lo ≤ hi + 1
    · rw [if_pos hlo, if_pos hlo]
      rcases hfind (hi + 1) hlo le_rfl with h | ⟨h0, -⟩
      · rw [h]
        simp only [Option.bind_eq_bind, Option.bind_some]
        cases find (hi + 1) with
        | some entry =>
          rw [Option.isSome_some, if_pos rfl, Option.some_or]
          split_ifs <;> rfl
        | none =>
          rw [Option.isSome_none, if_neg Bool.false_ne_true, Option.none_or]
          exact findLongest_eq_searchDown fun i h1 h2 => hfind i h1 (by omega)
      · cases h0
    · rw [if_neg hlo, if_neg hlo, if_neg (by omega)]

section

variable {t : SubnetTable} {regs : List PrefixMatch}

/-- **The search finds the longest prefix that is asked for**, and goes out of the
    table if there is none and it reaches zero. -/
theorem SubnetTable.findLongest_isLongest {addr : InAddr46} {ask : ℕ → InAddr46 × ℕ} {lo hi : ℕ}
    (hask : ∀ i, lo ≤ i → i ≤ hi →
      t.findLength addr i = some (lookup PrefixMatch.key regs (ask i)) ∨
        i = 0 ∧ t.findLength addr i = none ∧ lookup PrefixMatch.key regs (ask i) = none)
    (hlen : ∀ i m, PrefixMatch.key m = ask i → m.length = i)
    (hb : ∀ m ∈ regs, m.key = ask m.length → lo ≤ m.length ∧ m.length ≤ hi) :
    ∃ r, IsLongest PrefixMatch.key PrefixMatch.length (fun m => m.key = ask m.length) regs r ∧
      t.findLongest addr lo hi = if lo = 0 then r.map some else some r :=
  ⟨_, isLongest_searchDown hlen hb, findLongest_eq_searchDown hask⟩

theorem key_eq_askInet {m : PrefixMatch} (hl : ∀ p, m.address = .inet p → m.length ≤ 32)
    (a : BitVec 32) : m.key = askInet a m.length ↔ m.AskedFor (.inet a) := by
  obtain ⟨addr, length, entity⟩ := m
  cases addr with
  | inet p =>
    have hle : length ≤ 32 := hl p rfl
    have hkey : PrefixMatch.key ⟨.inet p, length, entity⟩ = askInet a length ↔
        p = a &&& allIpv4SubnetMasks.getD length 0 := by
      simp [PrefixMatch.key, askInet]
    rw [hkey, eq_and_iff (by decide) (netBit_ipv4Mask length (by omega))]
    constructor
    · intro h
      have hz : ZeroHostBits p length := by
        intro j hj hlj
        rw [h j hj, decide_eq_false (not_lt.2 hlj), Bool.and_false]
      exact ⟨(covers_iff hle hz).2 h, hz⟩
    · rintro ⟨hc, hz⟩
      exact (covers_iff hle hz).1 hc
  | inet6 p => exact iff_of_false (fun h => InAddr46.noConfusion (Prod.mk.inj h).1) id
  | other af => exact iff_of_false (fun h => InAddr46.noConfusion (Prod.mk.inj h).1) id

theorem key_eq_askInet6 {m : PrefixMatch} (hv : m.address.validLength m.length) (a : BitVec 128) :
    m.key = askInet6 a m.length ↔ m.AskedFor (.inet6 a) := by
  have hother : ∀ af, m.address ≠ .other af := by
    intro af haf
    rw [haf] at hv
    cases hv
  have hask : m.AskedFor (.inet6 a) ↔ 1 ≤ m.length ∧ m.Selected (.inet6 a) := by
    obtain ⟨addr, length, entity⟩ := m
    cases addr with
    | inet6 p => exact Iff.rfl
    | inet p => exact iff_of_false id fun h => h.2
    | other af => exact iff_of_false id fun h => h.2
  rw [hask, ← key_eq_iff_selected, askInet6]
  split_ifs with h0
  · exact iff_of_false (fun h => hother 0 (Prod.mk.inj h).1) (by omega)
  · exact ⟨fun h => ⟨by omega, h⟩, fun h => h.2⟩

theorem SubnetTable.Holds.shortestIpv4Prefix_eq_zero (h : t.Holds regs) (a : BitVec 32) :
    t.shortestIpv4Prefix = 0 ↔ hasLengthZero regs (.inet a) := by
  rw [h.bounds4.lo_eq_zero (by decide), List.mem_filterMap, hasLengthZero, List.any_eq_true]
  refine exists_congr fun m => and_congr_right fun _ => ?_
  obtain ⟨addr, length, entity⟩ := m
  cases addr <;> simp [PrefixMatch.inetLength, InAddr46.sameFamily]

theorem SubnetTable.Holds.shortestIpv6Prefix_eq_zero (h : t.Holds regs) (a : BitVec 128) :
    t.shortestIpv6Prefix = 0 ↔ hasLengthZero regs (.inet6 a) := by
  rw [h.bounds6.lo_eq_zero (by decide), List.mem_filterMap, hasLengthZero, List.any_eq_true]
  refine exists_congr fun m => and_congr_right fun _ => ?_
  obtain ⟨addr, length, entity⟩ := m
  cases addr <;> simp [PrefixMatch.inet6Length, InAddr46.sameFamily]

/-- **The lookup of an IPv4 address.** -/
theorem SubnetTable.Holds.isLongest_inet (h : t.Holds regs) (a : BitVec 32) :
    ∃ r, IsLongest PrefixMatch.key PrefixMatch.length (fun m => m.AskedFor (.inet a)) regs r ∧
      t.matchPrefix (.inet a) =
        (if hasLengthZero regs (.inet a) then r.map some else some r).map (.ok, ·) := by
  have hask : ∀ i, t.shortestIpv4Prefix ≤ i → i ≤ t.longestIpv4Prefix →
      t.findLength (.inet a) i = some (lookup PrefixMatch.key regs (askInet a i)) ∨
        i = 0 ∧ t.findLength (.inet a) i = none ∧
          lookup PrefixMatch.key regs (askInet a i) = none := by
    intro i _ hi
    have hlt : i < allIpv4SubnetMasks.length := Nat.lt_succ_of_le (hi.trans h.longest_le.1)
    refine Or.inl ?_
    rw [findLength, ← h.lookup_eq, askInet, List.getD_eq_getElem?_getD,
      List.getElem?_eq_getElem hlt]
    rfl
  have hb : ∀ m ∈ regs, m.key = askInet a m.length →
      t.shortestIpv4Prefix ≤ m.length ∧ m.length ≤ t.longestIpv4Prefix := by
    intro m hm hkey
    obtain ⟨h1, h2, -⟩ := h.inet_bounds hm (Prod.mk.inj hkey).1
    exact ⟨h1, h2⟩
  obtain ⟨r, hr, hfind⟩ := findLongest_isLongest hask (fun _ _ => askInet_length) hb
  refine ⟨r, hr.congr fun m hm => key_eq_askInet (fun p hp => (h.inet_bounds hm hp).2.2) a, ?_⟩
  rw [matchPrefix, hfind]
  simp only [h.shortestIpv4Prefix_eq_zero a]

/-- **The lookup of an IPv6 address.** -/
theorem SubnetTable.Holds.isLongest_inet6 (h : t.Holds regs) (a : BitVec 128) :
    ∃ r, IsLongest PrefixMatch.key PrefixMatch.length (fun m => m.AskedFor (.inet6 a)) regs r ∧
      t.matchPrefix (.inet6 a) =
        (if hasLengthZero regs (.inet6 a) then r.map some else some r).map (.ok, ·) := by
  have hask : ∀ i, t.shortestIpv6Prefix ≤ i → i ≤ t.longestIpv6Prefix →
      t.findLength (.inet6 a) i = some (lookup PrefixMatch.key regs (askInet6 a i)) ∨
        i = 0 ∧ t.findLength (.inet6 a) i = none ∧
          lookup PrefixMatch.key regs (askInet6 a i) = none := by
    intro i _ hi
    by_cases h0 : i = 0
    · refine Or.inr ⟨h0, by rw [findLength, if_pos h0], lookup_eq_none.2 fun m hm hkey => ?_⟩
      rw [askInet6, if_pos h0] at hkey
      exact h.ne_other hm 0 (Prod.mk.inj hkey).1
    · have hlt : i - 1 < 128 := by
        have := h.longest_le.2
        omega
      refine Or.inl ?_
      rw [findLength, if_neg h0, allIpv6SubnetMasks, List.getElem?_map, List.getElem?_range hlt,
        Option.map_some, Option.map_some, Nat.sub_add_cancel (by omega), h.lookup_eq, askInet6,
        if_neg h0]
  have hb : ∀ m ∈ regs, m.key = askInet6 a m.length →
      t.shortestIpv6Prefix ≤ m.length ∧ m.length ≤ t.longestIpv6Prefix := by
    intro m hm hkey
    rw [askInet6] at hkey
    split_ifs at hkey
    · exact absurd (Prod.mk.inj hkey).1 (h.ne_other hm 0)
    · obtain ⟨h1, h2, -⟩ := h.inet6_bounds hm (Prod.mk.inj hkey).1
      exact ⟨h1, h2⟩
  obtain ⟨r, hr, hfind⟩ := findLongest_isLongest hask (fun _ _ => askInet6_length) hb
  refine ⟨r, hr.congr fun m hm => key_eq_askInet6 (h.valid m hm) a, ?_⟩
  rw [matchPrefix, hfind]
  simp only [h.shortestIpv6Prefix_eq_zero a]

/-- **The lookup of an address** finds the longest prefix that is asked for. -/
theorem SubnetTable.Holds.matchPrefix_eq (h : t.Holds regs) {addr : InAddr46}
    (hf : ∀ af, addr ≠ .other af) :
    ∃ r, IsLongest PrefixMatch.key PrefixMatch.length (fun m => m.AskedFor addr) regs r ∧
      t.matchPrefix addr =
        (if hasLengthZero regs addr then r.map some else some r).map (.ok, ·) := by
  cases addr with
  | inet a => exact h.isLongest_inet a
  | inet6 a => exact h.isLongest_inet6 a
  | other af => exact absurd rfl (hf af)

/-! ## Usable tables -/

/-- A lookup goes out of the table if it reaches zero without a prefix. -/
theorem SubnetTable.Holds.matchPrefix_isSome (h : t.Holds regs) (addr : InAddr46) :
    (t.matchPrefix addr).isSome ↔
      (hasLengthZero regs addr → ∃ r ∈ regs, r.AskedFor addr) := by
  by_cases hf : ∃ af, addr = .other af
  · obtain ⟨af, rfl⟩ := hf
    refine iff_of_true rfl fun hzero => ?_
    obtain ⟨m, -, hm⟩ := List.any_eq_true.1 hzero
    cases hm : m.address <;> simp [hm, InAddr46.sameFamily] at *
  · obtain ⟨r, hr, hmatch⟩ := h.matchPrefix_eq fun af haf => hf ⟨af, haf⟩
    rw [hmatch]
    by_cases hzero : hasLengthZero regs addr
    · rw [if_pos hzero, Option.isSome_map, Option.isSome_map]
      cases r with
      | none =>
        refine iff_of_false nofun fun hex => ?_
        obtain ⟨m, hm, hasked⟩ := hex hzero
        exact hr m hm hasked
      | some m => exact iff_of_true rfl fun _ => ⟨m, (lookup_eq_some hr.1).1, hr.2.1⟩
    · rw [if_neg hzero]
      exact iff_of_true rfl fun hyes => absurd hyes hzero

/-- The prefixes that are asked for at one length are those of one address. -/
theorem PrefixMatch.AskedFor.key_eq {m m' : PrefixMatch} {addr : InAddr46}
    (hv : m.address.validLength m.length) (hv' : m'.address.validLength m'.length)
    (h : m.AskedFor addr) (h' : m'.AskedFor addr) (hlen : m.length = m'.length) : m.key = m'.key := by
  have hle : ∀ {m : PrefixMatch}, m.address.validLength m.length →
      ∀ p, m.address = .inet p → m.length ≤ 32 := by
    intro m hv p hp
    rw [hp, InAddr46.validLength_inet] at hv
    omega
  cases addr with
  | inet a => rw [(key_eq_askInet (hle hv) a).2 h, (key_eq_askInet (hle hv') a).2 h', hlen]
  | inet6 a => rw [(key_eq_askInet6 hv a).2 h, (key_eq_askInet6 hv' a).2 h', hlen]
  | other af =>
    rw [AskedFor.eq_def] at h
    cases hm : m.address <;> simp [hm] at h

theorem PrefixMatch.covers_of_key_eq {m m' : PrefixMatch} {addr : InAddr46} (h : m.key = m'.key)
    (hc : m.Covers addr) : m'.Covers addr := by
  obtain ⟨ha, hl⟩ := Prod.mk.inj h
  rw [Covers.eq_def] at hc ⊢
  rwa [← ha, ← hl]

/-- **The address of a prefix** is found if the longest prefix that is asked for covers
    it. -/
theorem SubnetTable.Holds.findsCovering_iff (h : t.Holds regs) {addr : InAddr46}
    (hf : ∀ af, addr ≠ .other af) :
    (∃ r, t.matchPrefix addr = some (.ok, some r) ∧ r.Covers addr) ↔
      ∃ r ∈ regs, r.AskedFor addr ∧ r.Covers addr ∧
        ∀ r' ∈ regs, r'.AskedFor addr → r'.length ≤ r.length := by
  obtain ⟨found, hr, hmatch⟩ := h.matchPrefix_eq hf
  have hiff : ∀ r, t.matchPrefix addr = some (.ok, some r) ↔ found = some r := by
    intro r
    rw [hmatch]
    split_ifs <;> cases found <;> simp
  simp only [hiff]
  cases found with
  | none =>
    refine iff_of_false (fun ⟨r, hnone, _⟩ => nomatch hnone) ?_
    rintro ⟨r, hmem, hasked, -⟩
    exact hr r hmem hasked
  | some m =>
    obtain ⟨hfirst, hasked, hlong⟩ := hr
    have hm := (lookup_eq_some hfirst).1
    constructor
    · rintro ⟨r, hsome, hc⟩
      obtain rfl := Option.some.inj hsome
      exact ⟨m, hm, hasked, hc, hlong⟩
    · rintro ⟨r, hmem, hasked', hc, hlong'⟩
      have hlen : r.length = m.length := le_antisymm (hlong r hmem hasked') (hlong' m hm hasked)
      have hkey := hasked'.key_eq (h.valid r hmem) (h.valid m hm) hasked hlen
      exact ⟨m, rfl, PrefixMatch.covers_of_key_eq hkey hc⟩

end

section

variable {inetPton : List Byte → Option (BitVec 32)} {inetPton6 : List Byte → Option (BitVec 128)}

/-- **Which tables can be used**: those with a prefix for every address that is written
    in a prefix, and for all addresses of a family that has a prefix of length zero. -/
theorem usable_iff {events : List (JsonEvent × Bool)} {t : SubnetTable}
    {status : SubnetActivityError}
    (h : subnetActivityInitialize inetPton inetPton6 events = some (t, status)) :
    t.Usable (registrations inetPton inetPton6 (subnetSpecInit, true) events) ↔
      LookupsFind (registrations inetPton inetPton6 (subnetSpecInit, true) events) := by
  have hold := subnetActivityInitialize_holds h
  refine and_congr (forall_congr' fun addr => hold.matchPrefix_isSome addr) ?_
  exact forall_congr' fun m => forall_congr' fun hm => hold.findsCovering_iff (hold.ne_other hm)

/-- The prefixes 10.0.0.0/8 and 10.1.0.0/16: no prefix has length zero, and the longest
    prefix that is asked for at each of the two addresses is the one with the address. -/
theorem lookupsFind_nested : LookupsFind tenPrefixes := by
  refine ⟨fun addr hzero => ?_, fun m hm => ?_⟩
  · cases addr <;> cases hzero
  · have hhost := tenPrefixes_zeroHostBits m hm
    obtain rfl | hm := List.mem_cons.1 hm
    · have hcov : PrefixMatch.Covers ⟨.inet 10, 8, some 0⟩ (.inet 10) := fun _ _ => rfl
      refine ⟨_, List.mem_cons_self, ⟨hcov, hhost _ rfl⟩, hcov, fun r' hr' hasked => ?_⟩
      obtain rfl | hr' := List.mem_cons.1 hr'
      · exact le_rfl
      · obtain rfl := List.mem_singleton.1 hr'
        exact absurd (hasked.1 15 (by decide)) (by decide)
    · obtain rfl := List.mem_singleton.1 hm
      have hcov : PrefixMatch.Covers ⟨.inet 0x10a, 16, some 0⟩ (.inet 0x10a) := fun _ _ => rfl
      refine ⟨_, List.mem_cons_of_mem _ (List.mem_singleton_self _), ⟨hcov, hhost _ rfl⟩, hcov,
        fun r' hr' _ => ?_⟩
      obtain rfl | hr' := List.mem_cons.1 hr'
      · decide
      · obtain rfl := List.mem_singleton.1 hr'
        exact le_rfl

/-- So their table can be used. -/
theorem usable_iff_nested : ∃ t, subnetActivityInitialize tenPton (fun _ => none) tenEvents =
      some (t, .ok) ∧
    t.Usable (registrations tenPton (fun _ => none) (subnetSpecInit, true) tenEvents) := by
  refine ⟨_, tenEvents_initialize, (usable_iff tenEvents_initialize).2 ?_⟩
  rw [tenEvents_registrations]
  exact lookupsFind_nested

/-- The prefix ::/0 is accepted, and the lookup of every IPv6 address reads the mask
    before the first one. -/
theorem not_usable_defaultRoute : ∃ t, subnetActivityInitialize (fun _ => none)
      (ptonOf [(ascii "::", 0)]) (oneEntity [(ascii "::", 0)]) = some (t, .ok) ∧
    ¬ t.Usable (registrations (fun _ => none) (ptonOf [(ascii "::", 0)]) (subnetSpecInit, true)
      (oneEntity [(ascii "::", 0)])) := by
  have hrun : subnetActivityInitialize (fun _ => none) (ptonOf [(ascii "::", 0)])
      (oneEntity [(ascii "::", 0)]) =
        some (⟨[campusName], [⟨.inet6 0, 0, some 0⟩], 1, 32, 0, 0, 0⟩, .ok) := by decide +kernel
  refine ⟨_, hrun, fun husable => ?_⟩
  have hnone : SubnetTable.matchPrefix ⟨[campusName], [⟨.inet6 0, 0, some 0⟩], 1, 32, 0, 0, 0⟩
      (.inet6 0) = none := by decide +kernel
  have hsome := husable.1 (.inet6 0)
  rw [hnone] at hsome
  cases hsome

end

end Honas

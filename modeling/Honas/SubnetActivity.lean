/-
  Looking up the subnet of a client (`src/subnet_activity.c`).

  Registered prefixes are found by address and length.  A lookup masks the
  address to every length, from the longest registered one to the shortest.
  The counter is unsigned: with a prefix of length zero, a search that finds
  nothing does not end at zero but reads a mask outside of the table
  (`subnetActivityMatchPrefix_isSome`).
-/
import Honas.State

namespace Honas

open Bits

deriving instance DecidableEq for InAddr46

/-- `all_ipv4_subnet_masks`. -/
def allIpv4SubnetMasks : List (BitVec 32) :=
  [0x00000000, 0x00000080, 0x000000C0, 0x000000E0, 0x000000F0, 0x000000F8, 0x000000FC, 0x000000FE,
   0x000000FF, 0x000080FF, 0x0000C0FF, 0x0000E0FF, 0x0000F0FF, 0x0000F8FF, 0x0000FCFF, 0x0000FEFF,
   0x0000FFFF, 0x0080FFFF, 0x00C0FFFF, 0x00E0FFFF, 0x00F0FFFF, 0x00F8FFFF, 0x00FCFFFF, 0x00FEFFFF,
   0x00FFFFFF, 0x80FFFFFF, 0xC0FFFFFF, 0xE0FFFFFF, 0xF0FFFFFF, 0xF8FFFFFF, 0xFCFFFFFF, 0xFEFFFFFF,
   0xFFFFFFFF]

/-- `onecharset`. -/
def onecharset : List Byte := [0x01, 0x03, 0x07, 0x0F, 0x1F, 0x3F, 0x7F, 0xFF]

/-- The mask that `generate_all_ipv6_prefixes` stores for a length. -/
def ipv6SubnetMask (i : ℕ) : BitVec 128 :=
  let div := i / 8
  let mod := i % 8
  let bytes := List.replicate div (onecharset.getD 7 0) ++
    if mod > 0 then [onecharset.getD (mod - 1) 0] else []
  BitVec.ofNat 128 (ofLE bytes)

/-- `all_ipv6_subnet_masks`. -/
def allIpv6SubnetMasks : List (BitVec 128) := (List.range 128).map fun i => ipv6SubnetMask (i + 1)

/-- `struct subnet_activity`: the registered prefixes, by address and length, and
    the bounds on their lengths. -/
structure SubnetActivity where
  prefixes : List ((InAddr46 × ℕ) × EntityName)
  shortestIpv4Prefix : ℕ
  longestIpv4Prefix : ℕ
  shortestIpv6Prefix : ℕ
  longestIpv6Prefix : ℕ
  longestIpv4Prefix_le : longestIpv4Prefix ≤ 32
  longestIpv6Prefix_le : longestIpv6Prefix ≤ 128

namespace SubnetActivity

/-- `HASH_FIND` of a prefix. -/
def find (t : SubnetActivity) (address : InAddr46) (length : ℕ) : Option EntityName :=
  t.prefixes.lookup (address, length)

/-- The search for the prefix of one length; `none` if the mask is read outside of
    its table.  The mask of an IPv6 prefix has index `i - 1`. -/
def findLength (t : SubnetActivity) (addr : InAddr46) (i : ℕ) : Option (Option EntityName) :=
  match addr with
  | .inet addr4 => allIpv4SubnetMasks[i]?.map fun mask => t.find (.inet (addr4 &&& mask)) i
  | .inet6 addr6 =>
    if i = 0 then none
    else allIpv6SubnetMasks[i - 1]?.map fun mask => t.find (.inet6 (addr6 &&& mask)) i
  | .other _ => none

/-- The loop over the lengths, from `i` down to the shortest.  After zero the
    counter wraps around, to the largest number, for which there is no mask. -/
def findLongest (t : SubnetActivity) (addr : InAddr46) (shortest : ℕ) :
    ℕ → Option (Option EntityName)
  | 0 =>
    if shortest ≤ 0 then
      match t.findLength addr 0 with
      | some (some entity) => some (some entity)
      | _ => none
    else some none
  | i + 1 =>
    if shortest ≤ i + 1 then
      match t.findLength addr (i + 1) with
      | none => none
      | some (some entity) => some (some entity)
      | some none => findLongest t addr shortest i
    else some none

end SubnetActivity

/-- `subnet_activity_match_prefix`: the entity of the prefix that was found.  An
    address of another family is an invalid argument. -/
def subnetActivityMatchPrefix (addr : InAddr46) (t : SubnetActivity) : Option (Option EntityName) :=
  match addr with
  | .inet _ => t.findLongest addr t.shortestIpv4Prefix t.longestIpv4Prefix
  | .inet6 _ => t.findLongest addr t.shortestIpv6Prefix t.longestIpv6Prefix
  | .other _ => some none

/-! ## When the search ends -/

namespace SubnetActivity

/-- The shortest registered length of the family of an address is positive, or a
    prefix is found for the address. -/
def Ends (t : SubnetActivity) (addr : InAddr46) : Prop :=
  match addr with
  | .inet _ => 0 < t.shortestIpv4Prefix ∨
    ∃ i ≤ t.longestIpv4Prefix, ∃ entity, t.findLength addr i = some (some entity)
  | .inet6 _ => 0 < t.shortestIpv6Prefix ∨
    ∃ i ≤ t.longestIpv6Prefix, ∃ entity, t.findLength addr i = some (some entity)
  | .other _ => True

theorem findLongest_isSome {t : SubnetActivity} {addr : InAddr46} {shortest : ℕ} :
    ∀ {longest : ℕ}, (∀ i, 0 < i → i ≤ longest → t.findLength addr i ≠ none) →
    ((t.findLongest addr shortest longest).isSome = true ↔
      0 < shortest ∨ ∃ i ≤ longest, ∃ entity, t.findLength addr i = some (some entity))
  | 0, _ => by
    rw [findLongest]
    by_cases hs : shortest ≤ 0
    · rw [if_pos hs]
      rcases h : t.findLength addr 0 with _ | _ | entity
      · refine ⟨nofun, ?_⟩
        rintro (h' | ⟨i, hi, entity, he⟩)
        · omega
        · rw [Nat.le_zero.1 hi, h] at he
          cases he
      · refine ⟨nofun, ?_⟩
        rintro (h' | ⟨i, hi, entity, he⟩)
        · omega
        · rw [Nat.le_zero.1 hi, h] at he
          cases he
      · exact ⟨fun _ => .inr ⟨0, le_rfl, entity, h⟩, fun _ => rfl⟩
    · rw [if_neg hs]
      exact ⟨fun _ => .inl (by omega), fun _ => rfl⟩
  | i + 1, hmask => by
    rw [findLongest]
    by_cases hs : shortest ≤ i + 1
    · rw [if_pos hs]
      rcases h : t.findLength addr (i + 1) with _ | _ | entity
      · exact absurd h (hmask (i + 1) (Nat.succ_pos i) le_rfl)
      · have hmask' : ∀ j, 0 < j → j ≤ i → t.findLength addr j ≠ none :=
          fun j hj hle => hmask j hj (by omega)
        rw [findLongest_isSome hmask']
        refine or_congr_right ⟨?_, ?_⟩
        · rintro ⟨j, hj, entity, he⟩
          exact ⟨j, by omega, entity, he⟩
        · rintro ⟨j, hj, entity, he⟩
          rcases Nat.lt_or_ge j (i + 1) with hlt | hge
          · exact ⟨j, by omega, entity, he⟩
          · rw [show j = i + 1 by omega, h] at he
            cases he
      · exact ⟨fun _ => .inr ⟨i + 1, le_rfl, entity, h⟩, fun _ => rfl⟩
    · rw [if_neg hs]
      exact ⟨fun _ => .inl (by omega), fun _ => rfl⟩

end SubnetActivity

/-- **When the lookup of a subnet ends.** -/
theorem subnetActivityMatchPrefix_isSome (addr : InAddr46) (t : SubnetActivity) :
    (subnetActivityMatchPrefix addr t).isSome = true ↔ t.Ends addr := by
  cases addr with
  | inet addr4 =>
    refine SubnetActivity.findLongest_isSome fun i _ hi => ?_
    have hlt : i < allIpv4SubnetMasks.length := by
      have := t.longestIpv4Prefix_le
      rw [show allIpv4SubnetMasks.length = 33 by rfl]
      omega
    rw [SubnetActivity.findLength, List.getElem?_eq_getElem hlt]
    nofun
  | inet6 addr6 =>
    refine SubnetActivity.findLongest_isSome fun i hpos hi => ?_
    have hlt : i - 1 < allIpv6SubnetMasks.length := by
      have := t.longestIpv6Prefix_le
      rw [allIpv6SubnetMasks, List.length_map, List.length_range]
      omega
    rw [SubnetActivity.findLength, if_neg (by omega), List.getElem?_eq_getElem hlt]
    nofun
  | other af => exact ⟨fun _ => trivial, fun _ => rfl⟩

end Honas

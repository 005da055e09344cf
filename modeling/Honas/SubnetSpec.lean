/-
  Loading the subnet definitions (`src/subnet_activity.c`).

  The file is a JSON document; the callbacks below consume its events.  The
  prefixes go into a hash table by address and length, each with the entity
  whose definition is being read, and every prefix updates the bounds on the
  lengths of its family.

  `subnetActivityInitialize_holds`: whatever the events are, a lookup in the table
  finds the first registration of a prefix, and the bounds hold.
-/
import Honas.SubnetActivity
import Honas.Lib.Json
import Honas.Lib.CString
import Honas.Lib.LongestMatch

namespace Honas

open Bits CString LongestMatch

/-! ## The table -/

/-- `enum subnet_activity_error`. -/
inductive SubnetActivityError where
  | ok
  | invalidArgument
  | openFileFailed
  | allocFailed
  | jsonMapFailed
  | jsonEndMapFailed
  | jsonArrayFailed
  | jsonEndArrayFailed
  | jsonMapKeyFailed
  | ipaddressParseFailed
  | jsonSpecStringFailed
  | jsonSpecIntegerFailed
  | invalidPrefixLength
deriving DecidableEq

/-- `struct prefix_match`; an entity is its position in `entities`. -/
structure PrefixMatch where
  address : InAddr46
  length : ℕ
  associatedEntity : Option ℕ
deriving DecidableEq

/-- `struct prefix`, the key in the hash table. -/
def PrefixMatch.key (m : PrefixMatch) : InAddr46 × ℕ := (m.address, m.length)

/-- `struct subnet_activity`; the names are the registered ones of `entities`. -/
structure SubnetTable where
  entities : List (List Byte)
  prefixes : List PrefixMatch
  registeredPrefixes : ℕ
  shortestIpv4Prefix : ℕ
  longestIpv4Prefix : ℕ
  shortestIpv6Prefix : ℕ
  longestIpv6Prefix : ℕ
deriving DecidableEq

/-- The capacity of `entities`. -/
def maxEntities : ℕ := 1024

/-- The size of `name`. -/
def sizeofEntityName : ℕ := 128

/-- `state` of the parsing context. -/
inductive SubnetSpecState where
  | init
  | subnetActivitySpec
  | subnetActivitySpecExpectMappingArray
  | subnetMappingArray
  | subnetMapping
  | subnetMappingExpectEntity
  | subnetMappingExpectPrefixesArray
  | prefixMappingArray
  | prefixMapping
  | prefixMappingExpectPrefix
  | prefixMappingExpectLength

/-- `struct subnet_activity_spec_context`. -/
structure SubnetSpecContext where
  state : SubnetSpecState
  subnetMetadata : SubnetTable
  saStatusCode : SubnetActivityError
  currentEntity : Option ℕ
  currentIpaddr : InAddr46

/-! ## The callbacks

A callback returns the context and whether the parser shall go on, or `none` when
it writes outside of an array.  `allocated` tells whether its allocation, if there
is one, succeeds. -/

/-- `add_prefix_hh`. -/
def addPrefixHh (ht : List PrefixMatch) (addr : InAddr46) (plen : ℕ) (entity : Option ℕ)
    (allocated : Bool) : List PrefixMatch × SubnetActivityError :=
  match lookup PrefixMatch.key ht (addr, plen) with
  | some _ => (ht, .ok)
  | none => if allocated then (ht ++ [⟨addr, plen, entity⟩], .ok) else (ht, .allocFailed)

/-- The lengths that are accepted for an address. -/
def InAddr46.validLength : InAddr46 → ℤ → Bool
  | .inet _, v => 0 ≤ v && v ≤ 32
  | .inet6 _, v => 0 ≤ v && v ≤ 128
  | .other _, _ => false

/-- A prefix counts, and updates the bounds of its family. -/
def SubnetTable.register (t : SubnetTable) (addr : InAddr46) (plen : ℕ) : SubnetTable :=
  match addr with
  | .inet _ => { t with
      registeredPrefixes := t.registeredPrefixes + 1
      shortestIpv4Prefix := min t.shortestIpv4Prefix plen
      longestIpv4Prefix := max t.longestIpv4Prefix plen }
  | _ => { t with
      registeredPrefixes := t.registeredPrefixes + 1
      shortestIpv6Prefix := min t.shortestIpv6Prefix plen
      longestIpv6Prefix := max t.longestIpv6Prefix plen }

/-- `subnet_activity_spec_integer`. -/
def subnetActivitySpecInteger (ctx : SubnetSpecContext) (integerVal : BitVec 64) (allocated : Bool) :
    SubnetSpecContext × Bool :=
  match ctx.state with
  | .prefixMappingExpectLength =>
    if ctx.currentIpaddr.validLength integerVal.toInt then
      let plen := u32 integerVal.toNat
      let (prefixes, status) := addPrefixHh ctx.subnetMetadata.prefixes ctx.currentIpaddr plen
        ctx.currentEntity allocated
      let table := { ctx.subnetMetadata with prefixes := prefixes }
      ({ ctx with
        state := .prefixMapping
        saStatusCode := status
        subnetMetadata := if status = .ok then table.register ctx.currentIpaddr plen else table }, true)
    else ({ ctx with saStatusCode := .invalidPrefixLength }, false)
  | _ => ({ ctx with saStatusCode := .jsonSpecIntegerFailed }, false)

/-- `subnet_activity_spec_string`. -/
def subnetActivitySpecString (ctx : SubnetSpecContext) (stringVal : List Byte) :
    Option (SubnetSpecContext × Bool) :=
  match ctx.state with
  | .subnetMappingExpectEntity => do
    let entities := ctx.subnetMetadata.entities
    let name ← entities.getLast?
    let name ← strncpy name stringVal stringVal.length
    some ({ ctx with
      state := .subnetMapping
      subnetMetadata := { ctx.subnetMetadata with entities := entities.dropLast ++ [name] } }, true)
  | _ => some ({ ctx with saStatusCode := .jsonSpecStringFailed }, false)

/-- `subnet_activity_spec_map_key`; the functions are `inet_pton` for each family. -/
def subnetActivitySpecMapKey (inetPton : List Byte → Option (BitVec 32))
    (inetPton6 : List Byte → Option (BitVec 128)) (ctx : SubnetSpecContext) (stringVal : List Byte) :
    Option (SubnetSpecContext × Bool) :=
  match ctx.state with
  | .subnetActivitySpec =>
    if stringVal = ascii "subnet_activity" then
      some ({ ctx with state := .subnetActivitySpecExpectMappingArray }, true)
    else some (ctx, true)
  | .subnetMapping =>
    if stringVal = ascii "entity" then
      some ({ ctx with state := .subnetMappingExpectEntity }, true)
    else if stringVal = ascii "prefixes" then
      some ({ ctx with state := .subnetMappingExpectPrefixesArray }, true)
    else some (ctx, true)
  | .prefixMapping => do
    let ipv46 ← strncpy (List.replicate 128 0) stringVal stringVal.length
    let len ← strlen ipv46
    let text := ipv46.take len
    match inetPton text with
    | some addr4 =>
      some ({ ctx with currentIpaddr := .inet addr4, state := .prefixMappingExpectLength }, true)
    | none =>
      match inetPton6 text with
      | some addr6 =>
        some ({ ctx with currentIpaddr := .inet6 addr6, state := .prefixMappingExpectLength }, true)
      | none =>
        some ({ ctx with currentIpaddr := .other 0, saStatusCode := .ipaddressParseFailed }, false)
  | _ => some ({ ctx with saStatusCode := .jsonMapKeyFailed }, false)

/-- `subnet_activity_spec_start_map`. -/
def subnetActivitySpecStartMap (ctx : SubnetSpecContext) (allocated : Bool) :
    Option (SubnetSpecContext × Bool) :=
  match ctx.state with
  | .init => some ({ ctx with state := .subnetActivitySpec }, true)
  | .subnetMappingArray =>
    let entities := ctx.subnetMetadata.entities
    if entities.length ≥ maxEntities then none
    else if allocated then
      some ({ ctx with
        state := .subnetMapping
        currentEntity := some entities.length
        subnetMetadata := { ctx.subnetMetadata with
          entities := entities ++ [List.replicate sizeofEntityName 0] } }, true)
    else some ({ ctx with currentEntity := none, saStatusCode := .allocFailed }, false)
  | .prefixMappingArray => some ({ ctx with state := .prefixMapping }, true)
  | _ => some ({ ctx with saStatusCode := .jsonMapFailed }, false)

/-- `subnet_activity_spec_end_map`. -/
def subnetActivitySpecEndMap (ctx : SubnetSpecContext) : SubnetSpecContext × Bool :=
  match ctx.state with
  | .subnetActivitySpec => ({ ctx with state := .init }, true)
  | .subnetMapping => ({ ctx with state := .subnetMappingArray }, true)
  | .prefixMapping => ({ ctx with state := .prefixMappingArray }, true)
  | _ => ({ ctx with saStatusCode := .jsonEndMapFailed }, false)

/-- `subnet_activity_spec_start_array`. -/
def subnetActivitySpecStartArray (ctx : SubnetSpecContext) : SubnetSpecContext × Bool :=
  match ctx.state with
  | .subnetActivitySpecExpectMappingArray => ({ ctx with state := .subnetMappingArray }, true)
  | .subnetMappingExpectPrefixesArray => ({ ctx with state := .prefixMappingArray }, true)
  | _ => ({ ctx with saStatusCode := .jsonArrayFailed }, false)

/-- `subnet_activity_spec_end_array`. -/
def subnetActivitySpecEndArray (ctx : SubnetSpecContext) : SubnetSpecContext × Bool :=
  match ctx.state with
  | .subnetMappingArray => ({ ctx with state := .subnetActivitySpec }, true)
  | .prefixMappingArray => ({ ctx with state := .subnetMapping }, true)
  | _ => ({ ctx with saStatusCode := .jsonEndArrayFailed }, false)

section

variable (inetPton : List Byte → Option (BitVec 32)) (inetPton6 : List Byte → Option (BitVec 128))

/-- `subnet_activity_json_callbacks`. -/
def subnetActivityEvent (ctx : SubnetSpecContext) :
    JsonEvent × Bool → Option (SubnetSpecContext × Bool)
  | (.null, _) | (.boolean _, _) | (.double, _) => some (ctx, true)
  | (.integer v, allocated) => some (subnetActivitySpecInteger ctx v allocated)
  | (.string s, _) => subnetActivitySpecString ctx s
  | (.startMap, allocated) => subnetActivitySpecStartMap ctx allocated
  | (.mapKey s, _) => subnetActivitySpecMapKey inetPton inetPton6 ctx s
  | (.endMap, _) => some (subnetActivitySpecEndMap ctx)
  | (.startArray, _) => some (subnetActivitySpecStartArray ctx)
  | (.endArray, _) => some (subnetActivitySpecEndArray ctx)

/-- The parser calls no more callbacks after one that stops it. -/
def subnetActivityStep : SubnetSpecContext × Bool → JsonEvent × Bool →
    Option (SubnetSpecContext × Bool)
  | (ctx, true), event => subnetActivityEvent inetPton inetPton6 ctx event
  | (ctx, false), _ => some (ctx, false)

/-- The context of `subnet_activity_initialize`. -/
def subnetSpecInit : SubnetSpecContext where
  state := .init
  subnetMetadata :=
    { entities := [], prefixes := [], registeredPrefixes := 0, shortestIpv4Prefix := 32,
      longestIpv4Prefix := 0, shortestIpv6Prefix := 128, longestIpv6Prefix := 0 }
  saStatusCode := .ok
  currentEntity := none
  currentIpaddr := .other 0

/-- `subnet_activity_initialize`, for the events of the file: the table, and the
    status. -/
def subnetActivityInitialize (events : List (JsonEvent × Bool)) :
    Option (SubnetTable × SubnetActivityError) := do
  let (ctx, _) ← events.foldlM (subnetActivityStep inetPton inetPton6) (subnetSpecInit, true)
  some (ctx.subnetMetadata, ctx.saStatusCode)

/-! ## Registrations -/

/-- The prefix that an event registers. -/
def SubnetSpecContext.registers (ctx : SubnetSpecContext) : JsonEvent × Bool → Option PrefixMatch
  | (.integer v, allocated) =>
    match ctx.state with
    | .prefixMappingExpectLength =>
      if ctx.currentIpaddr.validLength v.toInt ∧
          (addPrefixHh ctx.subnetMetadata.prefixes ctx.currentIpaddr (u32 v.toNat)
            ctx.currentEntity allocated).2 = .ok then
        some ⟨ctx.currentIpaddr, u32 v.toNat, ctx.currentEntity⟩
      else none
    | _ => none
  | _ => none

/-- The prefixes that a sequence of events registers, in this order. -/
def registrations : SubnetSpecContext × Bool → List (JsonEvent × Bool) → List PrefixMatch
  | _, [] => []
  | s, event :: events =>
    (if s.2 then s.1.registers event else none).toList ++
      match subnetActivityStep inetPton inetPton6 s event with
      | some s' => registrations s' events
      | none => []

end

/-! ## What the callbacks keep -/

/-- A callback that registers nothing changes at most the entities. -/
def Keeps (t t' : SubnetTable) : Prop := t' = { t with entities := t'.entities }

theorem Keeps.refl (t : SubnetTable) : Keeps t t := rfl

section

variable {ctx : SubnetSpecContext} {r : SubnetSpecContext × Bool}

theorem subnetActivitySpecString_keeps {s : List Byte} (h : subnetActivitySpecString ctx s = some r) :
    Keeps ctx.subnetMetadata r.1.subnetMetadata := by
  rw [subnetActivitySpecString] at h
  cases hs : ctx.state with
  | subnetMappingExpectEntity =>
    rw [hs] at h
    obtain ⟨name, -, h⟩ := Option.bind_eq_some_iff.1 h
    obtain ⟨name', -, h⟩ := Option.bind_eq_some_iff.1 h
    obtain rfl := Option.some.inj h
    exact rfl
  | _ =>
    rw [hs] at h
    obtain rfl := Option.some.inj h
    exact .refl _

theorem subnetActivitySpecMapKey_keeps {inetPton : List Byte → Option (BitVec 32)}
    {inetPton6 : List Byte → Option (BitVec 128)} {s : List Byte}
    (h : subnetActivitySpecMapKey inetPton inetPton6 ctx s = some r) :
    Keeps ctx.subnetMetadata r.1.subnetMetadata := by
  rw [subnetActivitySpecMapKey] at h
  cases hs : ctx.state with
  | subnetActivitySpec =>
    rw [hs] at h
    dsimp only at h
    split_ifs at h <;> obtain rfl := Option.some.inj h <;> exact .refl _
  | subnetMapping =>
    rw [hs] at h
    dsimp only at h
    split_ifs at h <;> obtain rfl := Option.some.inj h <;> exact .refl _
  | prefixMapping =>
    rw [hs] at h
    obtain ⟨ipv46, -, h⟩ := Option.bind_eq_some_iff.1 h
    obtain ⟨len, -, h⟩ := Option.bind_eq_some_iff.1 h
    dsimp only at h
    split at h
    · obtain rfl := Option.some.inj h
      exact .refl _
    · split at h <;> obtain rfl := Option.some.inj h <;> exact .refl _
  | _ =>
    rw [hs] at h
    obtain rfl := Option.some.inj h
    exact .refl _

theorem subnetActivitySpecStartMap_keeps {allocated : Bool}
    (h : subnetActivitySpecStartMap ctx allocated = some r) :
    Keeps ctx.subnetMetadata r.1.subnetMetadata := by
  rw [subnetActivitySpecStartMap] at h
  cases hs : ctx.state with
  | subnetMappingArray =>
    rw [hs] at h
    dsimp only at h
    split_ifs at h <;> obtain rfl := Option.some.inj h <;> exact rfl
  | _ =>
    rw [hs] at h
    obtain rfl := Option.some.inj h
    exact .refl _

theorem subnetActivitySpecEndMap_keeps (ctx : SubnetSpecContext) :
    Keeps ctx.subnetMetadata (subnetActivitySpecEndMap ctx).1.subnetMetadata := by
  rw [subnetActivitySpecEndMap]
  cases ctx.state <;> exact .refl _

theorem subnetActivitySpecStartArray_keeps (ctx : SubnetSpecContext) :
    Keeps ctx.subnetMetadata (subnetActivitySpecStartArray ctx).1.subnetMetadata := by
  rw [subnetActivitySpecStartArray]
  cases ctx.state <;> exact .refl _

theorem subnetActivitySpecEndArray_keeps (ctx : SubnetSpecContext) :
    Keeps ctx.subnetMetadata (subnetActivitySpecEndArray ctx).1.subnetMetadata := by
  rw [subnetActivitySpecEndArray]
  cases ctx.state <;> exact .refl _

end

/-! ## The table holds the registrations -/

/-- The length of an IPv4 prefix. -/
def PrefixMatch.inetLength (m : PrefixMatch) : Option ℕ :=
  match m.address with
  | .inet _ => some m.length
  | _ => none

/-- The length of an IPv6 prefix. -/
def PrefixMatch.inet6Length (m : PrefixMatch) : Option ℕ :=
  match m.address with
  | .inet6 _ => some m.length
  | _ => none

/-- The table is looked up like the registrations, and bounds their lengths. -/
structure SubnetTable.Holds (t : SubnetTable) (regs : List PrefixMatch) : Prop where
  lookup_eq : ∀ k, lookup PrefixMatch.key t.prefixes k = lookup PrefixMatch.key regs k
  bounds4 : Bounds 32 (regs.filterMap PrefixMatch.inetLength) t.shortestIpv4Prefix
    t.longestIpv4Prefix
  bounds6 : Bounds 128 (regs.filterMap PrefixMatch.inet6Length) t.shortestIpv6Prefix
    t.longestIpv6Prefix
  valid : ∀ m ∈ regs, m.address.validLength m.length

theorem SubnetTable.Holds.keeps {t t' : SubnetTable} {regs : List PrefixMatch} (h : t.Holds regs)
    (hk : Keeps t t') : t'.Holds regs := by
  rw [hk]
  exact ⟨h.lookup_eq, h.bounds4, h.bounds6, h.valid⟩

/-- A new prefix, or one that is in the table already. -/
theorem addPrefixHh_eq (ht : List PrefixMatch) (addr : InAddr46) (plen : ℕ) (entity : Option ℕ)
    (allocated : Bool) :
    addPrefixHh ht addr plen entity allocated =
        (insertNew PrefixMatch.key ht ⟨addr, plen, entity⟩, .ok) ∨
      addPrefixHh ht addr plen entity allocated = (ht, .allocFailed) := by
  have hkey : (⟨addr, plen, entity⟩ : PrefixMatch).key = (addr, plen) := rfl
  rw [addPrefixHh, insertNew, hkey]
  cases lookup PrefixMatch.key ht (addr, plen) with
  | some m => exact Or.inl rfl
  | none =>
    cases allocated with
    | true => exact Or.inl rfl
    | false => exact Or.inr rfl

/-- **A registration** keeps the table. -/
theorem SubnetTable.Holds.register {t : SubnetTable} {regs : List PrefixMatch} (h : t.Holds regs)
    {m : PrefixMatch} (hv : m.address.validLength m.length) :
    (({ t with prefixes := insertNew PrefixMatch.key t.prefixes m }).register m.address
      m.length).Holds (regs ++ [m]) := by
  have hlookup := lookup_insertNew h.lookup_eq m
  have hvalid : ∀ m' ∈ regs ++ [m], m'.address.validLength m'.length := by
    intro m' hm'
    rcases List.mem_append.1 hm' with hm' | hm'
    · exact h.valid m' hm'
    · rwa [List.mem_singleton.1 hm']
  obtain ⟨addr, plen, entity⟩ := m
  cases addr with
  | inet addr4 =>
    refine ⟨hlookup, ?_, ?_, hvalid⟩
    · rw [List.filterMap_append]
      exact h.bounds4.append plen
    · rw [List.filterMap_append]
      exact (List.append_nil _).symm ▸ h.bounds6
  | inet6 addr6 =>
    refine ⟨hlookup, ?_, ?_, hvalid⟩
    · rw [List.filterMap_append]
      exact (List.append_nil _).symm ▸ h.bounds4
    · rw [List.filterMap_append]
      exact h.bounds6.append plen
  | other af => cases hv

theorem InAddr46.validLength_inet {p : BitVec 32} {v : ℤ} :
    (InAddr46.inet p).validLength v ↔ 0 ≤ v ∧ v ≤ 32 := by
  simp [validLength]

theorem InAddr46.validLength_inet6 {p : BitVec 128} {v : ℤ} :
    (InAddr46.inet6 p).validLength v ↔ 0 ≤ v ∧ v ≤ 128 := by
  simp [validLength]

/-- A length that is accepted is small. -/
theorem InAddr46.validLength_range {addr : InAddr46} {v : ℤ} (h : addr.validLength v) :
    0 ≤ v ∧ v ≤ 128 := by
  cases addr with
  | inet p =>
    have := validLength_inet.1 h
    omega
  | inet6 p => exact validLength_inet6.1 h
  | other af => cases h

theorem u32_toNat_eq {v : BitVec 64} (h0 : 0 ≤ v.toInt) (h : v.toInt ≤ 128) :
    (u32 v.toNat : ℤ) = v.toInt := by
  rw [BitVec.toInt_eq_toNat_cond] at h0 h ⊢
  rw [u32]
  split_ifs at h0 h ⊢ <;> omega

theorem InAddr46.validLength_u32 {addr : InAddr46} {v : BitVec 64} (h : addr.validLength v.toInt) :
    addr.validLength (u32 v.toNat : ℕ) := by
  have hrange := validLength_range h
  rwa [u32_toNat_eq hrange.1 hrange.2]

/-- **The integer callback** registers a prefix, or leaves the table as it is. -/
theorem subnetActivitySpecInteger_holds {ctx : SubnetSpecContext} {regs : List PrefixMatch}
    (h : ctx.subnetMetadata.Holds regs) (v : BitVec 64) (allocated : Bool) :
    (subnetActivitySpecInteger ctx v allocated).1.subnetMetadata.Holds
      (regs ++ (ctx.registers (.integer v, allocated)).toList) := by
  rw [subnetActivitySpecInteger, SubnetSpecContext.registers]
  cases ctx.state with
  | prefixMappingExpectLength =>
    dsimp only
    by_cases hv : ctx.currentIpaddr.validLength v.toInt
    · rcases addPrefixHh_eq ctx.subnetMetadata.prefixes ctx.currentIpaddr (u32 v.toNat)
        ctx.currentEntity allocated with hadd | hadd
      · rw [hadd]
        simp only [hv, and_self, if_true]
        exact h.register (InAddr46.validLength_u32 hv)
      · rw [hadd]
        simp only [hv, reduceCtorEq, and_false, if_false, if_true, Option.toList_none,
          List.append_nil]
        exact h
    · simp only [hv, Bool.false_eq_true, false_and, if_false, Option.toList_none, List.append_nil]
      exact h
  | _ => simpa using h

section

variable {inetPton : List Byte → Option (BitVec 32)} {inetPton6 : List Byte → Option (BitVec 128)}

/-- One callback. -/
theorem subnetActivityEvent_holds {ctx : SubnetSpecContext} {regs : List PrefixMatch}
    (h : ctx.subnetMetadata.Holds regs) {event : JsonEvent × Bool} {r : SubnetSpecContext × Bool}
    (he : subnetActivityEvent inetPton inetPton6 ctx event = some r) :
    r.1.subnetMetadata.Holds (regs ++ (ctx.registers event).toList) := by
  obtain ⟨event, allocated⟩ := event
  cases event with
  | integer v =>
    obtain rfl := Option.some.inj he
    exact subnetActivitySpecInteger_holds h v allocated
  | string s => simpa [SubnetSpecContext.registers] using h.keeps (subnetActivitySpecString_keeps he)
  | startMap =>
    simpa [SubnetSpecContext.registers] using h.keeps (subnetActivitySpecStartMap_keeps he)
  | mapKey s => simpa [SubnetSpecContext.registers] using h.keeps (subnetActivitySpecMapKey_keeps he)
  | endMap =>
    obtain rfl := Option.some.inj he
    simpa [SubnetSpecContext.registers] using h.keeps (subnetActivitySpecEndMap_keeps ctx)
  | startArray =>
    obtain rfl := Option.some.inj he
    simpa [SubnetSpecContext.registers] using h.keeps (subnetActivitySpecStartArray_keeps ctx)
  | endArray =>
    obtain rfl := Option.some.inj he
    simpa [SubnetSpecContext.registers] using h.keeps (subnetActivitySpecEndArray_keeps ctx)
  | _ =>
    obtain rfl := Option.some.inj he
    simpa [SubnetSpecContext.registers] using h

theorem subnetActivityRun_holds : ∀ (events : List (JsonEvent × Bool))
    {s s' : SubnetSpecContext × Bool} {regs : List PrefixMatch}, s.1.subnetMetadata.Holds regs →
    events.foldlM (subnetActivityStep inetPton inetPton6) s = some s' →
    s'.1.subnetMetadata.Holds (regs ++ registrations inetPton inetPton6 s events)
  | [], s, s', regs, h, hrun => by
    obtain rfl := Option.some.inj hrun
    rwa [registrations, List.append_nil]
  | event :: events, s, s', regs, h, hrun => by
    obtain ⟨s₁, hs₁, hrest⟩ := Option.bind_eq_some_iff.1 hrun
    have h₁ : s₁.1.subnetMetadata.Holds
        (regs ++ (if s.2 then s.1.registers event else none).toList) := by
      obtain ⟨ctx, _ | _⟩ := s
      · obtain rfl := Option.some.inj hs₁
        simpa using h
      · exact subnetActivityEvent_holds h hs₁
    rw [registrations, hs₁, ← List.append_assoc]
    exact subnetActivityRun_holds events h₁ hrest

/-- **The table that is loaded** holds the registered prefixes. -/
theorem subnetActivityInitialize_holds {events : List (JsonEvent × Bool)} {t : SubnetTable}
    {status : SubnetActivityError}
    (h : subnetActivityInitialize inetPton inetPton6 events = some (t, status)) :
    t.Holds (registrations inetPton inetPton6 (subnetSpecInit, true) events) := by
  obtain ⟨⟨ctx, ok⟩, hrun, heq⟩ := Option.bind_eq_some_iff.1 h
  obtain ⟨rfl, -⟩ := Prod.mk.inj (Option.some.inj heq)
  have hinit : subnetSpecInit.subnetMetadata.Holds [] :=
    ⟨fun _ => rfl, Bounds.nil 32, Bounds.nil 128, nofun⟩
  exact subnetActivityRun_holds events hinit hrun

end

end Honas

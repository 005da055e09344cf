/-
  The subnets in the hash table (`src/subnet_activity.c`).

  The prefixes are elements of a hash table, which the callbacks fill, the lookups search
  and `subnet_activity_destroy` frees.  Elsewhere the table is a list of prefixes; here the
  functions that use it are those of the source, with the macros.  `.error` stands for the
  end of the program where a macro is refused memory.

  * `load_agree`: whatever the file, the loader ends as with the list, or fails where it
    does, and the hash table has the prefixes of the list, unless the program is ended or
    2^31 buckets have been granted;
  * `matchPrefix_hash`: a lookup then finds what a lookup in the list finds;
  * `destroy_restores`: freeing the elements leaves the memory as it was before the loader.
-/
import Honas.SubnetBounds
import Honas.SubnetMatch
import Honas.UthashTable

namespace Honas

open Bits LongestMatch

/-! ## The code -/

/-- `struct in_addr46`, with its padding. -/
def InAddr46.bytes : InAddr46 → List Byte
  | .inet addr4 => toLE 2 2 ++ toLE 2 0 ++ toLE 4 addr4.toNat ++ List.replicate 12 0
  | .inet6 addr6 => toLE 2 10 ++ toLE 2 0 ++ toLE 16 addr6.toNat
  | .other af => toLE 2 af ++ toLE 2 0 ++ List.replicate 16 0

/-- `struct prefix`: the key of an element. -/
def prefixKey (address : InAddr46) (length : ℕ) : List Byte := address.bytes ++ toLE 4 length

/-- The memory, and `prefixes`. -/
structure PrefixHash (ι : Type) where
  m : Elements ι PrefixMatch
  prefixes : Option (UtHash ι)

/-- `malloc` of an element: a pointer, and what is there, or `NULL`. -/
abbrev Malloc (ι : Type) := Elements ι PrefixMatch → Option (ι × Element ι PrefixMatch)

variable {ι : Type} [DecidableEq ι] (hashFcn : List Byte → BitVec 32)
  (uthashMalloc : UthashMalloc ι PrefixMatch) (malloc : Malloc ι)

/-- `add_prefix_hh`. -/
def PrefixHash.addPrefixHh (s : PrefixHash ι) (addr : InAddr46) (plen : ℕ) (entity : Option ℕ) :
    Option (Except ℕ (PrefixHash ι × SubnetActivityError)) := do
  let key := prefixKey addr plen
  let entry ← hashFind hashFcn s.m s.prefixes key
  if entry.isSome then some (.ok (s, .ok))
  else
    match malloc s.m with
    | none => some (.ok (s, .allocFailed))
    | some (entry, junk) =>
      let m := Function.update s.m entry
        (some { junk with key := key, value := ⟨addr, plen, entity⟩ })
      let added ← hashAdd uthashMalloc hashFcn m s.prefixes entry
      some (added.map fun r => (⟨r.1, some r.2⟩, .ok))

/-- `subnet_activity_spec_integer`; the list of the context is not used. -/
def PrefixHash.specInteger (ctx : SubnetSpecContext) (s : PrefixHash ι) (integerVal : BitVec 64) :
    Option (Except ℕ ((SubnetSpecContext × Bool) × PrefixHash ι)) :=
  match ctx.state with
  | .prefixMappingExpectLength =>
    if ctx.currentIpaddr.validLength integerVal.toInt then do
      let plen := u32 integerVal.toNat
      let added ← s.addPrefixHh hashFcn uthashMalloc malloc ctx.currentIpaddr plen
        ctx.currentEntity
      some (added.map fun r => (({ ctx with
        state := .prefixMapping
        saStatusCode := r.2
        subnetMetadata := if r.2 = .ok then ctx.subnetMetadata.register ctx.currentIpaddr plen
          else ctx.subnetMetadata }, true), r.1))
    else some (.ok (({ ctx with saStatusCode := .invalidPrefixLength }, false), s))
  | _ => some (.ok (({ ctx with saStatusCode := .jsonSpecIntegerFailed }, false), s))

variable (inetPton : List Byte → Option (BitVec 32)) (inetPton6 : List Byte → Option (BitVec 128))

/-- `subnet_activity_json_callbacks`; only one of them uses the prefixes. -/
def PrefixHash.step (r : Except ℕ ((SubnetSpecContext × Bool) × PrefixHash ι))
    (event : JsonEvent × Bool) : Option (Except ℕ ((SubnetSpecContext × Bool) × PrefixHash ι)) :=
  match r, event with
  | .error size, _ => some (.error size)
  | .ok ((ctx, true), s), (.integer v, _) => s.specInteger hashFcn uthashMalloc malloc ctx v
  | .ok (ctx, s), event =>
    (subnetActivityStep inetPton inetPton6 ctx event).map fun ctx => .ok (ctx, s)

/-- `subnet_activity_initialize`: the table but for the prefixes, the status and the
    prefixes. -/
def PrefixHash.load (m : Elements ι PrefixMatch) (events : List (JsonEvent × Bool)) :
    Option (Except ℕ (SubnetTable × SubnetActivityError × PrefixHash ι)) := do
  let loaded ← events.foldlM (PrefixHash.step hashFcn uthashMalloc malloc inetPton inetPton6)
    (.ok ((subnetSpecInit, true), ⟨m, none⟩))
  some (loaded.map fun r => (r.1.1.subnetMetadata, r.1.1.saStatusCode, r.2))

/-- `HASH_FIND` of a prefix, and the element that it finds. -/
def PrefixHash.find (s : PrefixHash ι) (address : InAddr46) (length : ℕ) :
    Option (Option PrefixMatch) := do
  let entry ← hashFind hashFcn s.m s.prefixes (prefixKey address length)
  match entry with
  | none => some none
  | some entry => (s.m entry).map fun e => some e.value

/-- The search for the prefix of one length. -/
def PrefixHash.findLength (s : PrefixHash ι) (addr : InAddr46) (i : ℕ) :
    Option (Option PrefixMatch) :=
  match addr with
  | .inet addr4 => allIpv4SubnetMasks[i]?.bind fun mask => s.find hashFcn (.inet (addr4 &&& mask)) i
  | .inet6 addr6 =>
    if i = 0 then none
    else allIpv6SubnetMasks[i - 1]?.bind fun mask => s.find hashFcn (.inet6 (addr6 &&& mask)) i
  | .other _ => none

/-- The loop over the lengths. -/
def PrefixHash.findLongest (s : PrefixHash ι) (addr : InAddr46) (shortest : ℕ) :
    ℕ → Option (Option PrefixMatch)
  | 0 =>
    if shortest ≤ 0 then do
      let entry ← s.findLength hashFcn addr 0
      if entry.isSome then some entry else s.findLength hashFcn addr (2 ^ 32 - 1)
    else some none
  | i + 1 =>
    if shortest ≤ i + 1 then do
      let entry ← s.findLength hashFcn addr (i + 1)
      if entry.isSome then some entry else findLongest s addr shortest i
    else some none

/-- `subnet_activity_match_prefix`, with the bounds of the table. -/
def PrefixHash.matchPrefix (s : PrefixHash ι) (t : SubnetTable) (addr : InAddr46) :
    Option (SubnetActivityError × Option PrefixMatch) :=
  match addr with
  | .inet _ =>
    (s.findLongest hashFcn addr t.shortestIpv4Prefix t.longestIpv4Prefix).map (.ok, ·)
  | .inet6 _ =>
    (s.findLongest hashFcn addr t.shortestIpv6Prefix t.longestIpv6Prefix).map (.ok, ·)
  | .other _ => some (.invalidArgument, none)

/-- What `subnet_activity_destroy` does to the prefixes. -/
def PrefixHash.destroy (s : PrefixHash ι) (t : SubnetTable) : Option (PrefixHash ι) :=
  if t.entities.length > 0 then do
    let el := s.prefixes.map UtHash.head
    let tmp ← s.m.nextOf el
    let numItems := (s.prefixes.map fun h => h.tbl.numItems).getD 0
    let (m, prefixes) ← hashFreeAll numItems s.m s.prefixes el tmp
    some ⟨m, prefixes⟩
  else some s

/-! ## Keys -/

theorem InAddr46.length_bytes (address : InAddr46) : address.bytes.length = 20 := by
  cases address <;> simp [InAddr46.bytes]

/-- Numbers of so many bytes. -/
theorem toLE_inj {w a b : ℕ} (ha : a < 256 ^ w) (hb : b < 256 ^ w) (h : toLE w a = toLE w b) :
    a = b := by
  have hof := congrArg ofLE h
  rwa [ofLE_toLE, ofLE_toLE, Nat.mod_eq_of_lt ha, Nat.mod_eq_of_lt hb] at hof

/-- An IPv4 or IPv6 address. -/
def InAddr46.IsIp : InAddr46 → Prop
  | .inet _ | .inet6 _ => True
  | .other _ => False

theorem InAddr46.isIp_of_validLength {address : InAddr46} {v : ℤ}
    (h : address.validLength v = true) : address.IsIp := by
  cases address with
  | inet | inet6 => trivial
  | other af => cases h

theorem InAddr46.bytes_inj {a b : InAddr46} (ha : a.IsIp) (hb : b.IsIp) (h : a.bytes = b.bytes) :
    a = b := by
  cases a with
  | other af => exact ha.elim
  | inet a =>
    cases b with
    | other af => exact hb.elim
    | inet b =>
      obtain ⟨hleft, -⟩ := List.append_inj' h rfl
      obtain ⟨-, haddr⟩ := List.append_inj' hleft (by rw [length_toLE, length_toLE])
      exact congrArg _ (BitVec.eq_of_toNat_eq (toLE_inj a.isLt b.isLt haddr))
    | inet6 b => cases (List.cons.inj h).1
  | inet6 a =>
    cases b with
    | other af => exact hb.elim
    | inet b => cases (List.cons.inj h).1
    | inet6 b =>
      obtain ⟨-, haddr⟩ := List.append_inj' h (by rw [length_toLE, length_toLE])
      exact congrArg _ (BitVec.eq_of_toNat_eq (toLE_inj a.isLt b.isLt haddr))

/-- **Prefixes with one key are equal.** -/
theorem prefixKey_inj {a b : InAddr46} {l k : ℕ} (ha : a.IsIp) (hb : b.IsIp) (hl : l < 2 ^ 32)
    (hk : k < 2 ^ 32) : prefixKey a l = prefixKey b k ↔ (a, l) = (b, k) := by
  constructor
  · intro h
    obtain ⟨hbytes, hlength⟩ := List.append_inj h
      ((InAddr46.length_bytes a).trans (InAddr46.length_bytes b).symm)
    rw [InAddr46.bytes_inj ha hb hbytes, toLE_inj hl hk hlength]
  · intro h
    obtain ⟨rfl, rfl⟩ := Prod.mk.inj h
    rfl

/-! ## The prefixes of a table -/

variable {hashFcn uthashMalloc malloc inetPton inetPton6} {m₀ : Elements ι PrefixMatch} {s : PrefixHash ι}
  {items : List (Item ι PrefixMatch)}

/-- A hash table has some prefixes, whose elements have been allocated since. -/
structure PrefixHash.Has (hashFcn : List Byte → BitVec 32)
    (uthashMalloc : UthashMalloc ι PrefixMatch) (m₀ : Elements ι PrefixMatch) (s : PrefixHash ι)
    (items : List (Item ι PrefixMatch)) : Prop where
  holds : HashHolds hashFcn s.m s.prefixes items
  granted : ∀ t, s.prefixes = some t → Granted uthashMalloc t
  keys : ∀ item ∈ items, item.key = prefixKey item.value.address item.value.length
  valid : ∀ item ∈ items, item.value.address.IsIp ∧ item.value.length < 2 ^ 32
  distinct : (items.map Item.key).Nodup
  outside : ∀ y, y ∉ pointers items → s.m y = m₀ y
  fresh : ∀ y ∈ pointers items, m₀ y = none

namespace PrefixHash

omit [DecidableEq ι] in
/-- The item of a prefix. -/
theorem Has.find?_eq (h : s.Has hashFcn uthashMalloc m₀ items) {address : InAddr46} {length : ℕ}
    (ha : address.IsIp) (hl : length < 2 ^ 32) :
    (items.find? (·.key = prefixKey address length)).map Item.value =
      lookup PrefixMatch.key (items.map Item.value) (address, length) := by
  rw [lookup, List.find?_map]
  refine congrArg (Option.map Item.value) (List.find?_congr fun item hitem => ?_)
  obtain ⟨haddr, hlength⟩ := h.valid item hitem
  rw [h.keys item hitem]
  exact decide_eq_decide.2 (prefixKey_inj haddr ha hlength hl)

omit [DecidableEq ι] in
/-- **`HASH_FIND` finds what is in the list.** -/
theorem Has.find_eq (h : s.Has hashFcn uthashMalloc m₀ items) {address : InAddr46} {length : ℕ}
    (ha : address.IsIp) (hl : length < 2 ^ 32) : s.find hashFcn address length =
      some (lookup PrefixMatch.key (items.map Item.value) (address, length)) := by
  rw [PrefixHash.find, hashFind_eq h.holds h.distinct, ← h.find?_eq ha hl]
  simp only [Option.bind_eq_bind, Option.bind_some]
  cases hfind : items.find? (·.key = prefixKey address length) with
  | none => rfl
  | some item =>
    obtain ⟨e, he, -, -, hvalue⟩ := (h.holds.held item (List.mem_of_find?_eq_some hfind)).element
    rw [Option.map_some, Option.map_some]
    dsimp only
    rw [he, Option.map_some, hvalue]

/-- The table did not get the buckets that it needs: the program ends because memory is
    refused, or it got 2^31 buckets, which is too many. -/
def Ended {β : Type} (uthashMalloc : UthashMalloc ι PrefixMatch) (r : Option (Except ℕ β)) : Prop :=
  (∃ size m, r = some (.error size) ∧ uthashMalloc m size = false) ∨
    (r = none ∧ ∃ m, uthashMalloc m (2 ^ 31 * sizeofUtHashBucket) = true)

omit [DecidableEq ι] in
theorem Ended.map {β γ : Type} {r : Option (Except ℕ β)} (h : Ended uthashMalloc r) (f : β → γ) :
    Ended uthashMalloc (r.bind fun added => some (added.map f)) := by
  rcases h with ⟨size, m, rfl, hrefused⟩ | ⟨rfl, hgranted⟩
  · exact .inl ⟨size, m, rfl, hrefused⟩
  · exact .inr ⟨rfl, hgranted⟩

/-- **A registration** in the hash table is one in the list. -/
theorem Has.addPrefixHh (hmalloc : ∀ m x junk, malloc m = some (x, junk) → m x = none)
    (h : s.Has hashFcn uthashMalloc m₀ items) {addr : InAddr46} {plen : ℕ} (ha : addr.IsIp) (hl : plen < 2 ^ 32)
    (entity : Option ℕ) :
    Ended uthashMalloc (s.addPrefixHh hashFcn uthashMalloc malloc addr plen entity) ∨
    ∃ s' items' allocated status,
      s.addPrefixHh hashFcn uthashMalloc malloc addr plen entity = some (.ok (s', status)) ∧
      s'.Has hashFcn uthashMalloc m₀ items' ∧
      Honas.addPrefixHh (items.map Item.value) addr plen entity allocated =
        (items'.map Item.value, status) := by
  rw [PrefixHash.addPrefixHh, hashFind_eq h.holds h.distinct]
  simp only [Option.bind_eq_bind, Option.bind_some, Option.isSome_map]
  have hlookup := h.find?_eq ha hl
  cases hfind : items.find? (·.key = prefixKey addr plen) with
  | some item =>
    rw [hfind] at hlookup
    refine .inr ⟨s, items, true, .ok, rfl, h, ?_⟩
    rw [Honas.addPrefixHh, ← hlookup]
    rfl
  | none =>
    rw [hfind] at hlookup
    rw [Option.isSome_none, if_neg Bool.false_ne_true]
    cases hm : malloc s.m with
    | none =>
      refine .inr ⟨s, items, false, .allocFailed, rfl, h, ?_⟩
      rw [Honas.addPrefixHh, ← hlookup]
      rfl
    | some r =>
      obtain ⟨x, junk⟩ := r
      have hnone := hmalloc _ _ _ hm
      have hx : x ∉ pointers items := fun hmem => by
        obtain ⟨e, he⟩ := h.holds.allocated hmem
        rw [hnone] at he
        cases he
      set e : Element ι PrefixMatch :=
        { junk with key := prefixKey addr plen, value := ⟨addr, plen, entity⟩ } with he
      set m₁ : Elements ι PrefixMatch := Function.update s.m x (some e) with hm₁
      have hholds₁ : HashHolds hashFcn m₁ s.prefixes items := h.holds.congr fun y hy =>
        Function.update_of_ne (ne_of_mem_of_not_mem hy hx) _ _
      have hadded := hashAdd_holds hholds₁ h.granted hx
        (Function.update_self x (some e) s.m)
      have hpointers : ∀ y, y ∈ pointers (items ++ [⟨x, e.key, e.value⟩]) ↔
          y ∈ pointers items ∨ y = x := by
        intro y
        rw [pointers_append, List.mem_append]
        exact or_congr_right List.mem_singleton
      dsimp only
      rw [← he, ← hm₁]
      generalize hashAdd uthashMalloc hashFcn m₁ s.prefixes x = r at hadded
      cases hadded with
      | fatal hrefused => exact .inl (.inl ⟨_, _, rfl, hrefused⟩)
      | wraps hgranted => exact .inl (.inr ⟨rfl, _, hgranted⟩)
      | @added m' h' hholds' hgranted' hsame =>
      refine .inr ⟨⟨m', some h'⟩, items ++ [⟨x, e.key, e.value⟩], true, .ok, rfl,
        ⟨hholds', ?_, ?_, ?_, ?_, fun y hy => ?_, fun y hy => ?_⟩, ?_⟩
      · rintro t ⟨rfl⟩
        exact hgranted'
      · exact List.forall_mem_append.2 ⟨h.keys, List.forall_mem_singleton.2 rfl⟩
      · exact List.forall_mem_append.2 ⟨h.valid, List.forall_mem_singleton.2 ⟨ha, hl⟩⟩
      · rw [List.map_append]
        refine List.nodup_append.2 ⟨h.distinct, List.nodup_singleton _, fun key hkey key' hkey' => ?_⟩
        obtain ⟨item, hitem, rfl⟩ := List.mem_map.1 hkey
        rw [List.mem_singleton.1 hkey']
        simpa using List.find?_eq_none.1 hfind item hitem
      · rw [hpointers, not_or] at hy
        dsimp only
        rw [hsame y hy.1 hy.2, hm₁, Function.update_of_ne hy.2]
        exact h.outside y hy.1
      · rcases (hpointers y).1 hy with hy | rfl
        · exact h.fresh y hy
        · rw [← h.outside y hx, hnone]
      · rw [Honas.addPrefixHh, ← hlookup, List.map_append]
        rfl

/-! ## The callbacks -/

/-- The context with a list of prefixes. -/
def withPrefixes (ht : List PrefixMatch) (r : SubnetSpecContext × Bool) : SubnetSpecContext × Bool :=
  ({ r.1 with subnetMetadata := { r.1.subnetMetadata with prefixes := ht } }, r.2)

omit [DecidableEq ι] in
/-- The other callbacks do not use the prefixes. -/
theorem subnetActivityStep_withPrefixes (ht : List PrefixMatch) (ctx : SubnetSpecContext)
    {event : JsonEvent × Bool} (he : ∀ v, event.1 ≠ .integer v) :
    subnetActivityStep inetPton inetPton6 (withPrefixes ht (ctx, true)) event =
      (subnetActivityStep inetPton inetPton6 (ctx, true) event).map (withPrefixes ht) := by
  obtain ⟨e, allocated⟩ := event
  obtain ⟨state, table, status, entity, addr⟩ := ctx
  cases e with
  | integer v => exact absurd rfl (he v)
  | null | boolean | double => rfl
  | endMap => cases state <;> rfl
  | startArray => cases state <;> rfl
  | endArray => cases state <;> rfl
  | string s =>
    cases state with
    | subnetMappingExpectEntity =>
      simp only [withPrefixes, subnetActivityStep, subnetActivityEvent, subnetActivitySpecString]
      cases table.entities.getLast? with
      | none => rfl
      | some name =>
        simp only [Option.bind_eq_bind, Option.bind_some]
        cases CString.strncpy name s s.length <;> rfl
    | _ => rfl
  | startMap =>
    cases state with
    | subnetMappingArray =>
      simp only [withPrefixes, subnetActivityStep, subnetActivityEvent, subnetActivitySpecStartMap]
      split_ifs <;> rfl
    | _ => rfl
  | mapKey s =>
    cases state with
    | subnetActivitySpec =>
      simp only [withPrefixes, subnetActivityStep, subnetActivityEvent, subnetActivitySpecMapKey]
      split_ifs <;> rfl
    | subnetMapping =>
      simp only [withPrefixes, subnetActivityStep, subnetActivityEvent, subnetActivitySpecMapKey]
      split_ifs <;> rfl
    | prefixMapping =>
      simp only [withPrefixes, subnetActivityStep, subnetActivityEvent, subnetActivitySpecMapKey]
      cases CString.strncpy (List.replicate 128 0) s s.length with
      | none => rfl
      | some ipv46 =>
        simp only [Option.bind_eq_bind, Option.bind_some]
        cases CString.strlen ipv46 with
        | none => rfl
        | some len =>
          simp only [Option.bind_some]
          cases inetPton (ipv46.take len) with
          | some addr4 => rfl
          | none => cases inetPton6 (ipv46.take len) <;> rfl
    | _ => rfl

/-- The same event; only a registration may be refused memory in one of the two. -/
def SameEvent (e e' : JsonEvent × Bool) : Prop :=
  e'.1 = e.1 ∧ ((∀ v, e.1 ≠ .integer v) → e' = e)

/-- The hash table did not get its buckets, or both tables fail, or the one has the prefixes
    of the other. -/
def Agree (hashFcn : List Byte → BitVec 32) (uthashMalloc : UthashMalloc ι PrefixMatch)
    (m₀ : Elements ι PrefixMatch)
    (r : Option (Except ℕ ((SubnetSpecContext × Bool) × PrefixHash ι)))
    (r' : Option (SubnetSpecContext × Bool)) : Prop :=
  Ended uthashMalloc r ∨ (r = none ∧ r' = none) ∨
    ∃ ctx s items, r = some (.ok (ctx, s)) ∧ s.Has hashFcn uthashMalloc m₀ items ∧
      r' = some (withPrefixes (items.map Item.value) ctx)

variable (hmalloc : ∀ m x junk, malloc m = some (x, junk) → m x = none)

include hmalloc in
/-- The callback that registers a prefix. -/
theorem Has.specInteger (h : s.Has hashFcn uthashMalloc m₀ items) (ctx : SubnetSpecContext)
    (v : BitVec 64) :
    ∃ allocated, Agree hashFcn uthashMalloc m₀ (s.specInteger hashFcn uthashMalloc malloc ctx v)
      (some (subnetActivitySpecInteger (withPrefixes (items.map Item.value) (ctx, true)).1 v
        allocated)) := by
  obtain ⟨state, table, status, entity, addr⟩ := ctx
  cases state with
  | prefixMappingExpectLength =>
    by_cases hv : addr.validLength v.toInt = true
    · have hl : u32 v.toNat < 2 ^ 32 := Nat.mod_lt _ (by norm_num)
      rcases h.addPrefixHh hmalloc (InAddr46.isIp_of_validLength hv) hl entity with
        hended | ⟨s', items', allocated, status', hadd, h', hlist⟩
      · refine ⟨true, .inl ?_⟩
        simp only [PrefixHash.specInteger, if_pos hv]
        exact hended.map _
      refine ⟨allocated, .inr (.inr ⟨(⟨.prefixMapping, if status' = .ok then
        table.register addr (u32 v.toNat) else table, status', entity, addr⟩, true), s', items', ?_,
        h', ?_⟩)⟩
      · simp only [PrefixHash.specInteger, if_pos hv, hadd]
        rfl
      · simp only [subnetActivitySpecInteger, withPrefixes, if_pos hv, hlist]
        split_ifs
        · cases addr <;> rfl
        · rfl
    · refine ⟨true, .inr (.inr ⟨(⟨.prefixMappingExpectLength, table, .invalidPrefixLength, entity,
        addr⟩, false), s, items, ?_, h, ?_⟩)⟩
      · simp only [PrefixHash.specInteger, if_neg hv]
      · simp only [subnetActivitySpecInteger, withPrefixes]
        exact congrArg some (if_neg hv)
  | _ => exact ⟨true, .inr (.inr ⟨_, s, items, rfl, h, rfl⟩)⟩

variable (inetPton inetPton6) in
include hmalloc in
/-- **One event.** -/
theorem Has.step (h : s.Has hashFcn uthashMalloc m₀ items) (ctx : SubnetSpecContext × Bool)
    (event : JsonEvent × Bool) :
    ∃ event', SameEvent event event' ∧ Agree hashFcn uthashMalloc m₀
      (PrefixHash.step hashFcn uthashMalloc malloc inetPton inetPton6 (.ok (ctx, s)) event)
      (subnetActivityStep inetPton inetPton6 (withPrefixes (items.map Item.value) ctx) event') := by
  obtain ⟨ctx, _ | _⟩ := ctx
  · exact ⟨event, ⟨rfl, fun _ => rfl⟩, .inr (.inr ⟨(ctx, false), s, items, rfl, h, rfl⟩)⟩
  by_cases he : ∃ v, event.1 = .integer v
  · obtain ⟨e, allocated⟩ := event
    obtain ⟨v, rfl⟩ := he
    obtain ⟨allocated', hagree⟩ := h.specInteger hmalloc ctx v
    exact ⟨(.integer v, allocated'), ⟨rfl, fun hne => absurd rfl (hne v)⟩, hagree⟩
  · rw [not_exists] at he
    refine ⟨event, ⟨rfl, fun _ => rfl⟩, ?_⟩
    have hstep : PrefixHash.step hashFcn uthashMalloc malloc inetPton inetPton6
        (.ok ((ctx, true), s)) event =
        (subnetActivityStep inetPton inetPton6 (ctx, true) event).map fun ctx => .ok (ctx, s) := by
      obtain ⟨e, allocated⟩ := event
      cases e with
      | integer v => exact absurd rfl (he v)
      | _ => rfl
    rw [hstep, subnetActivityStep_withPrefixes _ _ he]
    cases subnetActivityStep inetPton inetPton6 (ctx, true) event with
    | none => exact .inr (.inl ⟨rfl, rfl⟩)
    | some ctx' => exact .inr (.inr ⟨ctx', s, items, rfl, h, rfl⟩)

variable (hashFcn uthashMalloc malloc inetPton inetPton6) in
/-- There is no event after the end of the program. -/
theorem run_error (size : ℕ) : ∀ events : List (JsonEvent × Bool),
    events.foldlM (PrefixHash.step hashFcn uthashMalloc malloc inetPton inetPton6) (.error size) =
      some (.error size)
  | [] => rfl
  | _ :: events => run_error size events

variable (inetPton inetPton6) in
include hmalloc in
/-- **All events.** -/
theorem Has.run : ∀ (events : List (JsonEvent × Bool)) {s : PrefixHash ι}
    {items : List (Item ι PrefixMatch)} (ctx : SubnetSpecContext × Bool),
    s.Has hashFcn uthashMalloc m₀ items →
    ∃ events', List.Forall₂ SameEvent events events' ∧ Agree hashFcn uthashMalloc m₀
      (events.foldlM (PrefixHash.step hashFcn uthashMalloc malloc inetPton inetPton6) (.ok (ctx, s)))
      (events'.foldlM (subnetActivityStep inetPton inetPton6)
        (withPrefixes (items.map Item.value) ctx))
  | [], s, items, ctx, h => ⟨[], .nil, .inr (.inr ⟨ctx, s, items, rfl, h, rfl⟩)⟩
  | event :: events, s, items, ctx, h => by
    have hrefl : List.Forall₂ SameEvent events events :=
      List.forall₂_same.2 fun e _ => ⟨rfl, fun _ => rfl⟩
    obtain ⟨event', hsame, hagree⟩ := h.step inetPton inetPton6 hmalloc ctx event
    rcases hagree with (⟨size, m, herror, hrefused⟩ | ⟨hnone, hgranted⟩) | ⟨hnone, hnone'⟩ |
      ⟨ctx', s', items', hstep, h', hstep'⟩
    · refine ⟨event' :: events, .cons hsame hrefl, .inl (.inl ⟨size, m, ?_, hrefused⟩)⟩
      rw [List.foldlM_cons, herror]
      exact run_error hashFcn uthashMalloc malloc inetPton inetPton6 size events
    · refine ⟨event' :: events, .cons hsame hrefl, .inl (.inr ⟨?_, hgranted⟩)⟩
      rw [List.foldlM_cons, hnone]
      rfl
    · refine ⟨event' :: events, .cons hsame hrefl, .inr (.inl ⟨?_, ?_⟩)⟩
      · rw [List.foldlM_cons, hnone]
        rfl
      · rw [List.foldlM_cons, hnone']
        rfl
    · obtain ⟨events', hsames, hagree⟩ := Has.run events ctx' h'
      refine ⟨event' :: events', .cons hsame hsames, ?_⟩
      rw [List.foldlM_cons, hstep, List.foldlM_cons, hstep']
      exact hagree

/-! ## Entities come before prefixes -/

/-- There is an entity inside of a mapping, and where there is a prefix. -/
structure EntitiesFirst (ctx : SubnetSpecContext) : Prop where
  mapping : ctx.state.inMapping = true → ctx.subnetMetadata.entities ≠ []
  prefixes : ctx.subnetMetadata.entities = [] → ctx.subnetMetadata.prefixes = []

theorem EntitiesFirst.of_entities {ctx ctx' : SubnetSpecContext} (h : EntitiesFirst ctx)
    (hentities : ctx'.subnetMetadata.entities = ctx.subnetMetadata.entities)
    (hprefixes : ctx'.subnetMetadata.prefixes = ctx.subnetMetadata.prefixes)
    (hstate : ctx'.state.inMapping = true → ctx.state.inMapping = true) : EntitiesFirst ctx' :=
  ⟨fun hin => hentities ▸ h.mapping (hstate hin), fun hnil => hprefixes ▸ h.prefixes (hentities ▸ hnil)⟩

theorem EntitiesFirst.of_ne_nil {ctx : SubnetSpecContext} (h : ctx.subnetMetadata.entities ≠ []) :
    EntitiesFirst ctx := ⟨fun _ => h, fun hnil => absurd hnil h⟩

theorem EntitiesFirst.init : EntitiesFirst subnetSpecInit :=
  ⟨fun hin => absurd hin Bool.false_ne_true, fun _ => rfl⟩

/-- **Each callback** keeps entities before prefixes. -/
theorem EntitiesFirst.step {ctx : SubnetSpecContext × Bool} {event : JsonEvent × Bool}
    {r : SubnetSpecContext × Bool} (h : EntitiesFirst ctx.1)
    (hr : subnetActivityStep inetPton inetPton6 ctx event = some r) : EntitiesFirst r.1 := by
  obtain ⟨⟨state, table, status, entity, addr⟩, _ | _⟩ := ctx
  · obtain rfl := Option.some.inj hr
    exact h
  obtain ⟨e, allocated⟩ := event
  rw [subnetActivityStep] at hr
  cases e with
  | null | boolean | double =>
    obtain rfl := Option.some.inj hr
    exact h
  | integer v =>
    obtain rfl := Option.some.inj hr
    cases state with
    | prefixMappingExpectLength =>
      have hne : table.entities ≠ [] := h.mapping rfl
      refine .of_ne_nil ?_
      simp only [subnetActivitySpecInteger]
      split_ifs
      · cases addr <;> exact hne
      · exact hne
      · exact hne
    | _ => exact h.of_entities rfl rfl id
  | endMap =>
    obtain rfl := Option.some.inj hr
    cases state with
    | prefixMapping => exact h.of_entities rfl rfl fun _ => rfl
    | subnetActivitySpec | subnetMapping =>
      exact h.of_entities rfl rfl fun hin => absurd hin Bool.false_ne_true
    | _ => exact h.of_entities rfl rfl id
  | startArray =>
    obtain rfl := Option.some.inj hr
    cases state with
    | subnetMappingExpectPrefixesArray => exact h.of_entities rfl rfl fun _ => rfl
    | _ => exact h.of_entities rfl rfl id
  | endArray =>
    obtain rfl := Option.some.inj hr
    cases state with
    | prefixMappingArray => exact h.of_entities rfl rfl fun _ => rfl
    | _ => exact h.of_entities rfl rfl id
  | string s =>
    cases state with
    | subnetMappingExpectEntity =>
      obtain ⟨name, -, hr⟩ := Option.bind_eq_some_iff.1 hr
      obtain ⟨name', -, hr⟩ := Option.bind_eq_some_iff.1 hr
      obtain rfl := Option.some.inj hr
      exact .of_ne_nil (List.append_ne_nil_of_right_ne_nil _ (List.cons_ne_nil _ _))
    | _ =>
      obtain rfl := Option.some.inj hr
      exact h.of_entities rfl rfl id
  | startMap =>
    cases state with
    | subnetMappingArray =>
      simp only [subnetActivityEvent, subnetActivitySpecStartMap] at hr
      split_ifs at hr
      · obtain rfl := Option.some.inj hr
        exact .of_ne_nil (List.append_ne_nil_of_right_ne_nil _ (List.cons_ne_nil _ _))
      · obtain rfl := Option.some.inj hr
        exact h.of_entities rfl rfl id
    | prefixMappingArray =>
      obtain rfl := Option.some.inj hr
      exact h.of_entities rfl rfl fun _ => rfl
    | _ =>
      obtain rfl := Option.some.inj hr
      exact h.of_entities rfl rfl id
  | mapKey s =>
    cases state with
    | subnetActivitySpec =>
      simp only [subnetActivityEvent, subnetActivitySpecMapKey] at hr
      split_ifs at hr
      · obtain rfl := Option.some.inj hr
        exact h.of_entities rfl rfl id
      · obtain rfl := Option.some.inj hr
        exact h
    | subnetMapping =>
      simp only [subnetActivityEvent, subnetActivitySpecMapKey] at hr
      split_ifs at hr
      · obtain rfl := Option.some.inj hr
        exact h.of_entities rfl rfl fun _ => rfl
      · obtain rfl := Option.some.inj hr
        exact h.of_entities rfl rfl fun _ => rfl
      · obtain rfl := Option.some.inj hr
        exact h
    | prefixMapping =>
      obtain ⟨ipv46, -, hr⟩ := Option.bind_eq_some_iff.1 hr
      obtain ⟨len, -, hr⟩ := Option.bind_eq_some_iff.1 hr
      have hne : table.entities ≠ [] := h.mapping rfl
      cases hpton : inetPton (ipv46.take len) with
      | some addr4 =>
        simp only [hpton] at hr
        obtain rfl := Option.some.inj hr
        exact .of_ne_nil hne
      | none =>
        simp only [hpton] at hr
        cases hpton6 : inetPton6 (ipv46.take len) with
        | some addr6 =>
          simp only [hpton6] at hr
          obtain rfl := Option.some.inj hr
          exact .of_ne_nil hne
        | none =>
          simp only [hpton6] at hr
          obtain rfl := Option.some.inj hr
          exact .of_ne_nil hne
    | _ =>
      obtain rfl := Option.some.inj hr
      exact h.of_entities rfl rfl id

/-! ## The lookups and the memory -/

omit [DecidableEq ι] in
/-- The search for the prefix of one length. -/
theorem Has.findLength_eq (h : s.Has hashFcn uthashMalloc m₀ items) {t : SubnetTable}
    (ht : t.prefixes = items.map Item.value) (addr : InAddr46) (i : ℕ) :
    s.findLength hashFcn addr i = t.findLength addr i := by
  cases addr with
  | other af => rfl
  | inet addr4 =>
    rw [findLength, SubnetTable.findLength, ht]
    cases hmask : allIpv4SubnetMasks[i]? with
    | none => rfl
    | some mask =>
      have hlt : i < 33 := (List.getElem?_eq_some_iff.1 hmask).1
      exact h.find_eq trivial (by omega)
  | inet6 addr6 =>
    rw [findLength, SubnetTable.findLength, ht]
    by_cases h0 : i = 0
    · rw [if_pos h0, if_pos h0]
    rw [if_neg h0, if_neg h0]
    cases hmask : allIpv6SubnetMasks[i - 1]? with
    | none => rfl
    | some mask =>
      have hlt := (List.getElem?_eq_some_iff.1 hmask).1
      rw [allIpv6SubnetMasks, List.length_map, List.length_range] at hlt
      exact h.find_eq trivial (by omega)

omit [DecidableEq ι] in
theorem Has.findLongest_eq (h : s.Has hashFcn uthashMalloc m₀ items) {t : SubnetTable}
    (ht : t.prefixes = items.map Item.value) (addr : InAddr46) (shortest : ℕ) : ∀ longest : ℕ,
    s.findLongest hashFcn addr shortest longest = t.findLongest addr shortest longest
  | 0 => by
    rw [findLongest, SubnetTable.findLongest, h.findLength_eq ht, h.findLength_eq ht]
  | i + 1 => by
    rw [findLongest, SubnetTable.findLongest, h.findLength_eq ht, h.findLongest_eq ht addr shortest i]

/-- **The elements are freed**, and the memory is as before. -/
theorem Has.destroy (h : s.Has hashFcn uthashMalloc m₀ items) {t : SubnetTable}
    (ht : t.entities = [] → items = []) : s.destroy t = some ⟨m₀, none⟩ := by
  obtain ⟨holds, -, -, -, -, houtside, hfresh⟩ := h
  obtain ⟨m', hfrees, hfreed, hsame⟩ := hashFreeAll_holds holds
  have hrestored : m' = m₀ := by
    funext y
    by_cases hy : y ∈ pointers items
    · rw [hfreed y hy, hfresh y hy]
    · rw [hsame y hy, houtside y hy]
  obtain ⟨m, prefixes⟩ := s
  rw [PrefixHash.destroy]
  split_ifs with hentities
  · have hhead : prefixes.map UtHash.head = (pointers items).head? ∧
        (prefixes.map fun h => h.tbl.numItems).getD 0 = items.length := by
      cases holds with
      | empty => exact ⟨rfl, rfl⟩
      | table htable => exact ⟨htable.head.symm, htable.numItems⟩
    have hnext : m.nextOf (pointers items).head? = some (pointers items).tail.head? := by
      cases items with
      | nil => rfl
      | cons item items => exact holds.nextOf
    dsimp only at hfrees ⊢
    rw [hhead.1, hhead.2, hnext]
    simp only [Option.bind_eq_bind, Option.bind_some, hfrees, hrestored]
  · have hnil := ht (List.eq_nil_of_length_eq_zero (by omega))
    subst hnil
    cases holds with
    | table htable => exact absurd htable.head nofun
    | empty =>
      exact congrArg (fun m : Elements ι PrefixMatch => some (⟨m, none⟩ : PrefixHash ι))
        (funext fun y => houtside y List.not_mem_nil)

variable (hashFcn uthashMalloc inetPton inetPton6) in
include hmalloc in
/-- The hash table did not get its buckets, or both loaders fail, or it has the prefixes of
    the list. -/
theorem load_agree (m : Elements ι PrefixMatch) (events : List (JsonEvent × Bool)) :
    ∃ events', List.Forall₂ SameEvent events events' ∧
      (Ended uthashMalloc (load hashFcn uthashMalloc malloc inetPton inetPton6 m events) ∨
      (load hashFcn uthashMalloc malloc inetPton inetPton6 m events = none ∧
        subnetActivityInitialize inetPton inetPton6 events' = none) ∨
      ∃ t status s items, load hashFcn uthashMalloc malloc inetPton inetPton6 m events =
        some (.ok (t, status, s)) ∧ s.Has hashFcn uthashMalloc m items ∧
        (t.entities = [] → items = []) ∧ subnetActivityInitialize inetPton inetPton6 events' =
          some ({ t with prefixes := items.map Item.value }, status)) := by
  have hempty : (⟨m, none⟩ : PrefixHash ι).Has hashFcn uthashMalloc m [] :=
    ⟨.empty, nofun, List.forall_mem_nil _, List.forall_mem_nil _, List.nodup_nil, fun _ _ => rfl,
      fun _ hy => absurd hy List.not_mem_nil⟩
  obtain ⟨events', hsame, hagree⟩ := hempty.run inetPton inetPton6 hmalloc events
    (subnetSpecInit, true)
  refine ⟨events', hsame, ?_⟩
  rw [load, subnetActivityInitialize]
  rcases hagree with hended | ⟨hnone, hnone'⟩ | ⟨ctx, s, items, hrun, h, hrun'⟩
  · exact .inl (hended.map _)
  · have hnone'' : events'.foldlM (subnetActivityStep inetPton inetPton6) (subnetSpecInit, true) =
        none := hnone'
    exact .inr (.inl ⟨by rw [hnone]; rfl, by rw [hnone'']; rfl⟩)
  · have hrun'' : events'.foldlM (subnetActivityStep inetPton inetPton6) (subnetSpecInit, true) =
        some (withPrefixes (items.map Item.value) ctx) := hrun'
    have hfirst : EntitiesFirst (withPrefixes (items.map Item.value) ctx).1 :=
      Run.inv_of_run (I := fun r => EntitiesFirst r.1) (C := fun _ => True)
        (fun _ _ _ hr _ hstep => hr.step hstep) EntitiesFirst.init (fun _ _ => trivial) hrun''
    refine .inr (.inr ⟨ctx.1.subnetMetadata, ctx.1.saStatusCode, s, items, ?_, h, fun hnil => ?_,
      ?_⟩)
    · rw [hrun]
      rfl
    · exact List.map_eq_nil_iff.1 (hfirst.prefixes hnil)
    · rw [hrun'']
      rfl

variable (hashFcn inetPton inetPton6) in
include hmalloc in
/-- **A lookup in the hash table finds what a lookup in the list finds**, whatever the hash
    function, the file and the address, where no array of 32 GiB is granted: the callbacks
    accept the same files, or the program ends because a table or an array of buckets is
    refused. -/
theorem matchPrefix_hash (hlarge : ∀ m, uthashMalloc m (2 ^ 35) = false)
    (m : Elements ι PrefixMatch) (events : List (JsonEvent × Bool)) :
    (∃ size m', load hashFcn uthashMalloc malloc inetPton inetPton6 m events = some (.error size) ∧
      uthashMalloc m' size = false) ∨
    ∃ events', List.Forall₂ SameEvent events events' ∧
      ((load hashFcn uthashMalloc malloc inetPton inetPton6 m events = none ∧
        subnetActivityInitialize inetPton inetPton6 events' = none) ∨
      ∃ t status s prefixes, load hashFcn uthashMalloc malloc inetPton inetPton6 m events =
        some (.ok (t, status, s)) ∧
        subnetActivityInitialize inetPton inetPton6 events' =
          some ({ t with prefixes := prefixes }, status) ∧
        ∀ addr, s.matchPrefix hashFcn t addr = { t with prefixes := prefixes }.matchPrefix addr) := by
  obtain ⟨events', hsame, (herror | ⟨-, m', hgranted⟩) | hnone | ⟨t, status, s, items, hload, h, -,
    hload'⟩⟩ := load_agree hashFcn uthashMalloc inetPton inetPton6 hmalloc m events
  · exact .inl herror
  · exact absurd hgranted (by rw [sizeofUtHashBucket, ← Nat.pow_add 2 31 4, hlarge m']; decide)
  · exact .inr ⟨events', hsame, .inl hnone⟩
  refine .inr ⟨events', hsame, .inr ⟨t, status, s, _, hload, hload', fun addr => ?_⟩⟩
  set t' : SubnetTable := { t with prefixes := items.map Item.value }
  have hlongest := h.findLongest_eq (t := t') rfl addr
  cases addr with
  | other af => rfl
  | inet addr4 =>
    rw [matchPrefix, SubnetTable.matchPrefix]
    exact congrArg (Option.map _) (hlongest t.shortestIpv4Prefix t.longestIpv4Prefix)
  | inet6 addr6 =>
    rw [matchPrefix, SubnetTable.matchPrefix]
    exact congrArg (Option.map _) (hlongest t.shortestIpv6Prefix t.longestIpv6Prefix)

/-- `malloc` of the first element that is not allocated, of sixteen. -/
def mallocFirst : Malloc ℕ := fun m =>
  ((List.range 16).find? fun x => (m x).isNone).map fun x =>
    (x, ⟨none, none, none, none, [], 0, ⟨.other 0, 0, none⟩⟩)

theorem mallocFirst_fresh (m : Elements ℕ PrefixMatch) (x : ℕ) (junk : Element ℕ PrefixMatch)
    (h : mallocFirst m = some (x, junk)) : m x = none := by
  obtain ⟨x', hfind, hx⟩ := Option.map_eq_some_iff.1 h
  obtain ⟨rfl, -⟩ := Prod.mk.inj hx
  have hnone : (m x').isNone = true := List.find?_some (p := fun x => (m x).isNone) hfind
  exact Option.isNone_iff_eq_none.1 hnone

/-- Networks of 10.0.0.0/8.  The function of Jenkins puts all but the first in one of the
    32 buckets. -/
def bucketAddresses : List (List Byte × BitVec 32) :=
  [(ascii "10.0.0.0", 10), (ascii "10.25.0.0", 0x190a), (ascii "10.36.0.0", 0x240a),
    (ascii "10.44.0.0", 0x2c0a), (ascii "10.82.0.0", 0x520a), (ascii "10.137.0.0", 0x890a),
    (ascii "10.139.0.0", 0x8b0a), (ascii "10.142.0.0", 0x8e0a), (ascii "10.148.0.0", 0x940a),
    (ascii "10.159.0.0", 0x9f0a), (ascii "10.179.0.0", 0xb30a), (ascii "10.200.0.0", 0xc80a)]

/-- A file with the prefix 10.0.0.0/8, and the other networks as prefixes of length 16. -/
def bucketEvents : List (JsonEvent × Bool) :=
  oneEntity (bucketAddresses.map fun a => (a.1, if a.2 = 10 then 8 else 16))

/-- An allocator of the table and the buckets that grants less than 32 GiB at a time. -/
def mallocBelow : UthashMalloc ℕ PrefixMatch := fun _ size => decide (size < 2 ^ 35)

theorem mallocBelow_large (m : Elements ℕ PrefixMatch) : mallocBelow m (2 ^ 35) = false := by
  unfold mallocBelow
  decide

/-- The loader on this file. -/
def bucketLoad : Option (Except ℕ (SubnetTable × SubnetActivityError × PrefixHash ℕ)) :=
  load hashJen mallocBelow mallocFirst (ptonOf bucketAddresses) (fun _ => none) (fun _ => none)
    bucketEvents

/-- The tenth element of the bucket makes the number of buckets twice as large. -/
theorem bucketLoad_numBuckets : ∃ t status s, bucketLoad = some (.ok (t, status, s)) ∧
    s.prefixes.map (fun h => h.tbl.numBuckets) = some 64 := by
  have hbuckets : (bucketLoad.bind Except.toOption).bind (fun r =>
      r.2.2.prefixes.map fun h => h.tbl.numBuckets) = some 64 := by decide +kernel
  obtain ⟨⟨t, status, s⟩, hload, hnum⟩ := Option.bind_eq_some_iff.1 hbuckets
  obtain ⟨r, hr, hok⟩ := Option.bind_eq_some_iff.1 hload
  cases r with
  | error size => cases hok
  | ok r =>
    obtain rfl := Option.some.inj hok
    exact ⟨t, status, s, hr, hnum⟩

/-- Twelve prefixes, with the hash function of Jenkins and an expansion of the buckets. -/
theorem matchPrefix_hash_expanded : ∃ events' t status s prefixes,
    List.Forall₂ SameEvent bucketEvents events' ∧ bucketLoad = some (.ok (t, status, s)) ∧
      s.prefixes.map (fun h => h.tbl.numBuckets) = some 64 ∧
      subnetActivityInitialize (ptonOf bucketAddresses) (fun _ => none) events' =
        some ({ t with prefixes := prefixes }, status) ∧
      ∀ addr, s.matchPrefix hashJen t addr = { t with prefixes := prefixes }.matchPrefix addr := by
  obtain ⟨t, status, s, hload, hnum⟩ := bucketLoad_numBuckets
  rcases matchPrefix_hash hashJen (ptonOf bucketAddresses) (fun _ => none) mallocFirst_fresh
    mallocBelow_large (fun _ => none) bucketEvents with ⟨size, -, herror, -⟩ |
      ⟨events', hsame, ⟨hnone, -⟩ | ⟨t', status', s', prefixes, hload', hinit, hfind⟩⟩
  · cases hload.symm.trans herror
  · cases hload.symm.trans hnone
  · obtain ⟨rfl, hrest⟩ := Prod.mk.inj (Except.ok.inj (Option.some.inj (hload.symm.trans hload')))
    obtain ⟨rfl, rfl⟩ := Prod.mk.inj hrest
    exact ⟨events', t, status, s, prefixes, hsame, hload, hnum, hinit, hfind⟩

include hmalloc in
/-- **Freeing the elements** after the loader follows no dangling pointer, and leaves the
    memory as it was before. -/
theorem destroy_restores {m : Elements ι PrefixMatch} {events : List (JsonEvent × Bool)}
    {t : SubnetTable} {status : SubnetActivityError}
    (hload : load hashFcn uthashMalloc malloc inetPton inetPton6 m events =
      some (.ok (t, status, s))) : s.destroy t = some ⟨m, none⟩ := by
  obtain ⟨-, -, (⟨size, m', herror, -⟩ | ⟨hnone, -⟩) | ⟨hnone, -⟩ |
    ⟨t', status', s', items, hload', h, hentities, -⟩⟩ :=
    load_agree hashFcn uthashMalloc inetPton inetPton6 hmalloc m events
  · rw [hload] at herror
    cases Option.some.inj herror
  · rw [hload] at hnone
    cases hnone
  · rw [hload] at hnone
    cases hnone
  · obtain ⟨rfl, hrest⟩ := Prod.mk.inj (Except.ok.inj (Option.some.inj (hload.symm.trans hload')))
    obtain ⟨-, rfl⟩ := Prod.mk.inj hrest
    exact h.destroy hentities

/-- The twelve elements are freed. -/
theorem destroy_restores_expanded : ∃ t status s, bucketLoad = some (.ok (t, status, s)) ∧
    s.prefixes.map (fun h => h.tbl.numBuckets) = some 64 ∧
    s.destroy t = some ⟨fun _ => none, none⟩ := by
  obtain ⟨t, status, s, hload, hnum⟩ := bucketLoad_numBuckets
  exact ⟨t, status, s, hload, hnum, destroy_restores mallocFirst_fresh hload⟩

end PrefixHash

end Honas

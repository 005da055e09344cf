/-
  Generating the definitions of subnets (`scripts/subnet_definitions_generator.py`).

  The script reads rows with a prefix and the name of an entity, and prints a document with
  one mapping for each entity.  `ipaddress.ip_network` is a parameter: it refuses a prefix
  that has host bits, and the address of a network is printed as a text that `inet_pton`
  reads.

  * `reads_jsonData`: the callbacks accept the document, and register its prefixes.
  * `matchPrefix_jsonData`: so a lookup of an IPv4 address finds the longest prefix of the rows
    that covers it, with the name of its entity.
-/
import Honas.SubnetDocument
import Honas.SubnetMatch
import Honas.Lib.Dict

namespace Honas

open Bits CString LongestMatch

/-! ## The script -/

/-- A row: the columns `Prefix` and `Volledige naam klant`. -/
abbrev MappingRow := List Byte × List Byte

/-- A network, as it is printed: `network_address` and `prefixlen`. -/
abbrev IpNetwork := List Byte × ℕ

/-- `input_mappings`. -/
def inputMappings (rows : List MappingRow) : List MappingRow := Dict.ofItems rows

/-- The keys of `input_entities`. -/
def inputEntities (rows : List MappingRow) : List (List Byte) :=
  (Dict.ofItems (rows.map fun row => (row.2, 0))).map Prod.fst

/-- An element of `associated_prefixes`. -/
def networkJson (n : IpNetwork) : Json := .object [(n.1, .integer (BitVec.ofNat 64 n.2))]

/-- An element of `json_data["subnet_activity"]`. -/
def entityJson (d : List Byte × List IpNetwork) : Json :=
  .object [(ascii "entity", .string d.1), (ascii "prefixes", .array (d.2.map networkJson))]

section

variable (ipNetwork : List Byte → Option IpNetwork)

/-- `associated_prefixes`, or `none` if a prefix is refused. -/
def associatedPrefixes (rows : List MappingRow) (e : List Byte) : Option (List IpNetwork) :=
  ((inputMappings rows).filter fun m => m.2 = e).mapM fun m => ipNetwork m.1

/-- The entities with their prefixes. -/
def definitions (rows : List MappingRow) : Option (List (List Byte × List IpNetwork)) :=
  (inputEntities rows).mapM fun e => (associatedPrefixes ipNetwork rows e).map (e, ·)

/-- `json_data`. -/
def jsonData (rows : List MappingRow) : Option Json :=
  (definitions ipNetwork rows).map fun defs =>
    .object [(ascii "subnet_activity", .array (defs.map entityJson))]

end

/-- A prefix that was read is the last one with its text. -/
theorem mem_inputMappings {rows : List MappingRow} {text e : List Byte} :
    (text, e) ∈ inputMappings rows ↔
      rows.reverse.find? (fun row => row.1 = text) = some (text, e) :=
  Dict.mem_ofItems

theorem mem_inputEntities {rows : List MappingRow} {e : List Byte} :
    e ∈ inputEntities rows ↔ ∃ row ∈ rows, row.2 = e := by
  rw [inputEntities, Dict.mem_keys_ofItems, List.map_map]
  exact List.mem_map

section

variable {α β : Type*} {f : α → Option β}

theorem mem_mapM : ∀ {xs : List α} {ys : List β}, xs.mapM f = some ys → ∀ y,
    y ∈ ys ↔ ∃ x ∈ xs, f x = some y
  | [], _, h, y => by
    obtain rfl := Option.some.inj h
    refine iff_of_false List.not_mem_nil ?_
    rintro ⟨_, hx, _⟩
    exact List.not_mem_nil hx
  | x :: xs, ys, h, y => by
    rw [List.mapM_cons] at h
    obtain ⟨y₀, hy₀, h⟩ := Option.bind_eq_some_iff.1 h
    obtain ⟨ys₀, hys₀, h⟩ := Option.bind_eq_some_iff.1 h
    obtain rfl := Option.some.inj h
    rw [List.mem_cons, mem_mapM hys₀, List.exists_mem_cons_iff, hy₀, Option.some_inj, eq_comm]

theorem exists_of_mapM : ∀ {xs : List α} {ys : List β}, xs.mapM f = some ys → ∀ {x}, x ∈ xs →
    ∃ y, f x = some y
  | [], _, _, _, hx => (List.not_mem_nil hx).elim
  | x₀ :: xs, ys, h, x, hx => by
    rw [List.mapM_cons] at h
    obtain ⟨y₀, hy₀, h⟩ := Option.bind_eq_some_iff.1 h
    obtain ⟨ys₀, hys₀, -⟩ := Option.bind_eq_some_iff.1 h
    rcases List.mem_cons.1 hx with rfl | hx
    · exact ⟨y₀, hy₀⟩
    · exact exists_of_mapM hys₀ hx

theorem length_mapM : ∀ {xs : List α} {ys : List β}, xs.mapM f = some ys → ys.length = xs.length
  | [], _, h => by
    obtain rfl := Option.some.inj h
    rfl
  | x :: xs, ys, h => by
    rw [List.mapM_cons] at h
    obtain ⟨y₀, -, h⟩ := Option.bind_eq_some_iff.1 h
    obtain ⟨ys₀, hys₀, h⟩ := Option.bind_eq_some_iff.1 h
    obtain rfl := Option.some.inj h
    rw [List.length_cons, List.length_cons, length_mapM hys₀]

end

/-! ## Networks -/

/-- The host bits of an address are zero. -/
def InAddr46.NoHostBits : InAddr46 → ℕ → Prop
  | .inet p, length => ZeroHostBits p length
  | .inet6 p, length => ZeroHostBits p length
  | .other _, _ => False

variable {inetPton : List Byte → Option (BitVec 32)} {inetPton6 : List Byte → Option (BitVec 128)}

/-- What a network is printed as: a text of less than `INET6_ADDRSTRLEN` bytes that
    `inet_pton` reads, and a length of its family that leaves no host bits. -/
structure IsNetwork (inetPton : List Byte → Option (BitVec 32))
    (inetPton6 : List Byte → Option (BitVec 128)) (n : IpNetwork) (addr : InAddr46) : Prop where
  parse : parseAddress inetPton inetPton6 n.1 = some addr
  short : n.1.length < 46
  text : 0 ∉ n.1
  length : addr.validLength n.2
  host : addr.NoHostBits n.2

/-- The prefix of a network, with its entity. -/
def networkPrefix (inetPton : List Byte → Option (BitVec 32))
    (inetPton6 : List Byte → Option (BitVec 128)) (entity : Option ℕ) (n : IpNetwork) :
    Option PrefixMatch :=
  (parseAddress inetPton inetPton6 n.1).map fun addr => ⟨addr, n.2, entity⟩

/-- The prefixes of all entities. -/
def definedPrefixes (inetPton : List Byte → Option (BitVec 32))
    (inetPton6 : List Byte → Option (BitVec 128)) (k : ℕ)
    (defs : List (List Byte × List IpNetwork)) : List PrefixMatch :=
  (defs.zipIdx k).flatMap fun d => d.1.2.filterMap (networkPrefix inetPton inetPton6 (some d.2))

/-! ## The callbacks over the document -/

/-- The callbacks read some events, and register prefixes. -/
inductive Reads (inetPton : List Byte → Option (BitVec 32))
    (inetPton6 : List Byte → Option (BitVec 128)) :
    SubnetSpecContext → List JsonEvent → List PrefixMatch → SubnetSpecContext → Prop
  | nil {ctx : SubnetSpecContext} : Reads inetPton inetPton6 ctx [] [] ctx
  | cons {ctx ctx₁ ctx' : SubnetSpecContext} {e : JsonEvent} {es : List JsonEvent}
      {regs : List PrefixMatch} :
      subnetActivityEvent inetPton inetPton6 ctx (e, true) = some (ctx₁, true) →
      Reads inetPton inetPton6 ctx₁ es regs ctx' →
      Reads inetPton inetPton6 ctx (e :: es) ((ctx.registers (e, true)).toList ++ regs) ctx'

/-- Between the callbacks: the state, the entity that is being read, and the names of the
    entities so far. -/
structure Reading (ctx : SubnetSpecContext) (state : SubnetSpecState) (entity : Option ℕ)
    (names : List (List Byte)) : Prop where
  state : ctx.state = state
  entity : ctx.currentEntity = entity
  names : ctx.subnetMetadata.entities = names
  status : ctx.saStatusCode = .ok

section

variable {ctx ctx₁ ctx' : SubnetSpecContext} {es es' : List JsonEvent} {regs regs' : List PrefixMatch}
  {names : List (List Byte)} {entity : Option ℕ}

theorem Reads.append (h : Reads inetPton inetPton6 ctx es regs ctx₁)
    (h' : Reads inetPton inetPton6 ctx₁ es' regs' ctx') :
    Reads inetPton inetPton6 ctx (es ++ es') (regs ++ regs') ctx' := by
  induction h with
  | nil => exact h'
  | cons he _ ih =>
    rw [List.append_assoc]
    exact .cons he (ih h')

/-- The events are those of a run of the parser. -/
theorem Reads.run (h : Reads inetPton inetPton6 ctx es regs ctx') :
    (es.map fun e => (e, true)).foldlM (subnetActivityStep inetPton inetPton6) (ctx, true) =
        some (ctx', true) ∧
      registrations inetPton inetPton6 (ctx, true) (es.map fun e => (e, true)) = regs := by
  induction h with
  | nil => exact ⟨rfl, rfl⟩
  | cons he _ ih =>
    obtain ⟨hrun, hregs⟩ := ih
    have hstep : subnetActivityStep inetPton inetPton6 (_, true) (_, true) = some (_, true) := he
    rw [List.map_cons, List.foldlM_cons, registrations, hstep]
    exact ⟨hrun, by rw [← hregs]; rfl⟩

theorem Reading.goto {state state' : SubnetSpecState} (h : Reading ctx state entity names) :
    Reading { ctx with state := state' } state' entity names :=
  ⟨rfl, h.entity, h.names, h.status⟩

/-- The address of a network is read. -/
theorem subnetActivitySpecMapKey_network (ctx : SubnetSpecContext) (hs : ctx.state = .prefixMapping)
    {n : IpNetwork} {addr : InAddr46} (hn : IsNetwork inetPton inetPton6 n addr) :
    subnetActivitySpecMapKey inetPton inetPton6 ctx n.1 =
      some ({ ctx with currentIpaddr := addr, state := .prefixMappingExpectLength }, true) := by
  have hshort := hn.short
  have htake : (pad 128 n.1).take n.1.length = n.1 := by
    rw [pad, List.take_left]
  have hparse := hn.parse
  rw [parseAddress] at hparse
  rw [subnetActivitySpecMapKey, hs]
  dsimp only
  rw [strncpy_zeros (by omega), truncate_eq_self hn.text, Option.bind_eq_bind, Option.bind_some,
    strlen_pad 128 hn.text (by omega), Option.bind_eq_bind, Option.bind_some, htake]
  cases h4 : inetPton n.1 with
  | some addr4 =>
    rw [h4] at hparse
    obtain rfl := Option.some.inj hparse
    rfl
  | none =>
    rw [h4] at hparse
    cases h6 : inetPton6 n.1 with
    | some addr6 =>
      rw [h6] at hparse
      obtain rfl := Option.some.inj hparse
      rfl
    | none =>
      rw [h6] at hparse
      cases hparse

/-- The length of a network is read, and the network is registered. -/
theorem subnetActivitySpecInteger_network (ctx : SubnetSpecContext)
    (hs : ctx.state = .prefixMappingExpectLength) {plen : ℕ}
    (hv : ctx.currentIpaddr.validLength plen) : ∃ table,
    subnetActivitySpecInteger ctx (BitVec.ofNat 64 plen) true =
        ({ ctx with state := .prefixMapping, saStatusCode := .ok, subnetMetadata := table }, true) ∧
      table.entities = ctx.subnetMetadata.entities ∧
      ctx.registers (.integer (BitVec.ofNat 64 plen), true) =
        some ⟨ctx.currentIpaddr, plen, ctx.currentEntity⟩ := by
  have hrange := InAddr46.validLength_range hv
  have hint : (BitVec.ofNat 64 plen).toInt = plen := by
    rw [BitVec.toInt_eq_toNat_cond, BitVec.toNat_ofNat]
    split_ifs <;> omega
  have hvalid : ctx.currentIpaddr.validLength (BitVec.ofNat 64 plen).toInt := by rw [hint]; exact hv
  have hlen : u32 (BitVec.ofNat 64 plen).toNat = plen := by
    rw [InAddr46.validLength_toInt hvalid, hint, Int.toNat_natCast]
  have hadd : (addPrefixHh ctx.subnetMetadata.prefixes ctx.currentIpaddr plen ctx.currentEntity
      true).2 = .ok := by
    rw [addPrefixHh]
    cases lookup PrefixMatch.key ctx.subnetMetadata.prefixes (ctx.currentIpaddr, plen) <;> rfl
  refine ⟨SubnetTable.register { ctx.subnetMetadata with prefixes := (addPrefixHh
      ctx.subnetMetadata.prefixes ctx.currentIpaddr plen ctx.currentEntity true).1 }
    ctx.currentIpaddr plen, ?_, SubnetTable.register_entities .., ?_⟩
  · simp only [subnetActivitySpecInteger, hs, hint, hv, hlen, hadd, if_true]
  · simp only [SubnetSpecContext.registers, hs, hint, hv, hlen, hadd, and_self, if_true]

/-- A network is read. -/
theorem reads_network (h : Reading ctx .prefixMappingArray entity names) {n : IpNetwork}
    {addr : InAddr46} (hn : IsNetwork inetPton inetPton6 n addr) :
    ∃ ctx', Reads inetPton inetPton6 ctx (networkJson n).events [⟨addr, n.2, entity⟩] ctx' ∧
      Reading ctx' .prefixMappingArray entity names := by
  have hstart : subnetActivityEvent inetPton inetPton6 ctx (.startMap, true) =
      some ({ ctx with state := .prefixMapping }, true) := by
    simp only [subnetActivityEvent, subnetActivitySpecStartMap, h.state]
  have hkey := subnetActivitySpecMapKey_network { ctx with state := .prefixMapping } rfl hn
  obtain ⟨table, hint, hentities, hreg⟩ := subnetActivitySpecInteger_network
    { ctx with currentIpaddr := addr, state := .prefixMappingExpectLength } rfl hn.length
  have hend : Reads inetPton inetPton6 { ctx with
      state := .prefixMapping
      saStatusCode := .ok
      subnetMetadata := table
      currentIpaddr := addr } [.endMap] [] { ctx with
        state := .prefixMappingArray
        saStatusCode := .ok
        subnetMetadata := table
        currentIpaddr := addr } := .cons rfl .nil
  have hlength := Reads.cons (show subnetActivityEvent inetPton inetPton6 _
    (.integer (BitVec.ofNat 64 n.2), true) = _ from congrArg some hint) hend
  rw [hreg] at hlength
  have hreads := Reads.cons hstart (.cons (show subnetActivityEvent inetPton inetPton6 _
    (.mapKey n.1, true) = _ from hkey) hlength)
  obtain rfl := h.entity
  exact ⟨_, hreads, rfl, rfl, hentities.trans h.names, rfl⟩

theorem reads_networks : ∀ {ns : List IpNetwork} {ctx : SubnetSpecContext},
    Reading ctx .prefixMappingArray entity names →
    (∀ n ∈ ns, ∃ addr, IsNetwork inetPton inetPton6 n addr) →
    ∃ ctx', Reads inetPton inetPton6 ctx (Json.elemsEvents (ns.map networkJson))
        (ns.filterMap (networkPrefix inetPton inetPton6 entity)) ctx' ∧
      Reading ctx' .prefixMappingArray entity names
  | [], ctx, h, _ => ⟨ctx, .nil, h⟩
  | n :: ns, ctx, h, hns => by
    rw [List.forall_mem_cons] at hns
    obtain ⟨⟨addr, hn⟩, hns⟩ := hns
    obtain ⟨ctx₁, hreads₁, h₁⟩ := reads_network h hn
    obtain ⟨ctx', hreads, h'⟩ := reads_networks h₁ hns
    have hprefix : networkPrefix inetPton inetPton6 entity n = some ⟨addr, n.2, entity⟩ := by
      rw [networkPrefix, hn.parse, Option.map_some]
    refine ⟨ctx', ?_, h'⟩
    rw [List.map_cons, Json.elemsEvents, List.filterMap_cons_some hprefix]
    exact hreads₁.append hreads

/-- **The mapping of an entity** is read: its networks are registered for the next entity. -/
theorem reads_entity {d : List Byte × List IpNetwork}
    (h : Reading ctx .subnetMappingArray entity names) (hroom : names.length < maxEntities)
    (hname : d.1.length < sizeofEntityName) (h0 : 0 ∉ d.1)
    (hd : ∀ n ∈ d.2, ∃ addr, IsNetwork inetPton inetPton6 n addr) :
    ∃ ctx', Reads inetPton inetPton6 ctx (entityJson d).events
        (d.2.filterMap (networkPrefix inetPton inetPton6 (some names.length))) ctx' ∧
      Reading ctx' .subnetMappingArray (some names.length) (names ++ [pad sizeofEntityName d.1]) := by
  have hevents : (entityJson d).events =
      [.startMap, .mapKey (ascii "entity"), .string d.1, .mapKey (ascii "prefixes"), .startArray] ++
        (Json.elemsEvents (d.2.map networkJson) ++ [.endArray, .endMap]) := by
    simp [entityJson, Json.events, Json.membersEvents]
  -- the entity without its name, and with it
  let started : SubnetSpecContext := { ctx with
    state := .subnetMapping
    currentEntity := some names.length
    subnetMetadata := { ctx.subnetMetadata with
      entities := names ++ [List.replicate sizeofEntityName 0] } }
  let named : SubnetSpecContext := { started with
    subnetMetadata := { ctx.subnetMetadata with entities := names ++ [pad sizeofEntityName d.1] } }
  have hstart : subnetActivityEvent inetPton inetPton6 ctx (.startMap, true) =
      some (started, true) := by
    simp only [subnetActivityEvent, subnetActivitySpecStartMap, h.state, h.names,
      if_neg (not_le.2 hroom), if_true]
    rfl
  have hentity : subnetActivityEvent inetPton inetPton6 started (.mapKey (ascii "entity"), true) =
      some ({ started with state := .subnetMappingExpectEntity }, true) := rfl
  have hstring : subnetActivityEvent inetPton inetPton6
      { started with state := .subnetMappingExpectEntity } (.string d.1, true) =
        some (named, true) := by
    have hlast : started.subnetMetadata.entities.getLast? =
        some (List.replicate sizeofEntityName 0) := List.getLast?_concat
    have hcopy : strncpy (List.replicate sizeofEntityName 0) d.1 d.1.length =
        some (pad sizeofEntityName d.1) := by
      rw [strncpy_zeros hname.le, truncate_eq_self h0]
    have hdrop : started.subnetMetadata.entities.dropLast = names := List.dropLast_concat
    simp only [subnetActivityEvent, subnetActivitySpecString, hlast, hdrop, hcopy,
      Option.bind_eq_bind, Option.bind_some]
    rfl
  have hprefixes : subnetActivityEvent inetPton inetPton6 named (.mapKey (ascii "prefixes"), true) =
      some ({ named with state := .subnetMappingExpectPrefixesArray }, true) := rfl
  have hnamed : Reading { named with state := .prefixMappingArray } .prefixMappingArray
      (some names.length) (names ++ [pad sizeofEntityName d.1]) := ⟨rfl, rfl, rfl, h.status⟩
  obtain ⟨ctx₁, hreads₁, h₁⟩ := reads_networks hnamed hd
  have hbefore : Reads inetPton inetPton6 ctx [.startMap, .mapKey (ascii "entity"), .string d.1,
      .mapKey (ascii "prefixes"), .startArray] [] { named with state := .prefixMappingArray } :=
    .cons hstart (.cons hentity (.cons hstring (.cons hprefixes (.cons rfl .nil))))
  have hend : subnetActivityEvent inetPton inetPton6 ctx₁ (.endArray, true) =
      some ({ ctx₁ with state := .subnetMapping }, true) := by
    simp only [subnetActivityEvent, subnetActivitySpecEndArray, h₁.state]
  have hafter : Reads inetPton inetPton6 ctx₁ [.endArray, .endMap] []
      { ctx₁ with state := .subnetMappingArray } := .cons hend (.cons rfl .nil)
  have hreads := hbefore.append (hreads₁.append hafter)
  rw [List.nil_append, List.append_nil] at hreads
  rw [hevents]
  exact ⟨_, hreads, h₁.goto⟩

theorem reads_entities : ∀ {defs : List (List Byte × List IpNetwork)} {ctx : SubnetSpecContext}
    {names : List (List Byte)} {entity : Option ℕ},
    Reading ctx .subnetMappingArray entity names → names.length + defs.length ≤ maxEntities →
    (∀ d ∈ defs, d.1.length < sizeofEntityName ∧ 0 ∉ d.1 ∧
      ∀ n ∈ d.2, ∃ addr, IsNetwork inetPton inetPton6 n addr) →
    ∃ ctx' entity', Reads inetPton inetPton6 ctx (Json.elemsEvents (defs.map entityJson))
        (definedPrefixes inetPton inetPton6 names.length defs) ctx' ∧
      Reading ctx' .subnetMappingArray entity' (names ++ defs.map fun d => pad sizeofEntityName d.1)
  | [], ctx, names, entity, h, _, _ => by
    refine ⟨ctx, entity, .nil, ?_⟩
    rw [List.map_nil, List.append_nil]
    exact h
  | d :: defs, ctx, names, entity, h, hroom, hdefs => by
    rw [List.length_cons] at hroom
    rw [List.forall_mem_cons] at hdefs
    obtain ⟨⟨hname, h0, hd⟩, hdefs⟩ := hdefs
    obtain ⟨ctx₁, hreads₁, h₁⟩ := reads_entity h (by omega) hname h0 hd
    have hlength : (names ++ [pad sizeofEntityName d.1]).length = names.length + 1 := by
      rw [List.length_append, List.length_singleton]
    obtain ⟨ctx', entity', hreads, h'⟩ := reads_entities h₁ (by omega) hdefs
    rw [hlength] at hreads
    rw [List.append_assoc, List.singleton_append] at h'
    refine ⟨ctx', entity', ?_, h'⟩
    rw [List.map_cons, Json.elemsEvents, definedPrefixes, List.zipIdx_cons, List.flatMap_cons]
    exact hreads₁.append hreads

end

/-- **The document is accepted**, and its prefixes are registered. -/
theorem reads_jsonData {defs : List (List Byte × List IpNetwork)} (hroom : defs.length ≤ maxEntities)
    (hdefs : ∀ d ∈ defs, d.1.length < sizeofEntityName ∧ 0 ∉ d.1 ∧
      ∀ n ∈ d.2, ∃ addr, IsNetwork inetPton inetPton6 n addr) :
    ∃ t, subnetActivityInitialize inetPton inetPton6
          ((Json.object [(ascii "subnet_activity", .array (defs.map entityJson))]).events.map
            fun e => (e, true)) = some (t, .ok) ∧
      t.entities = (defs.map fun d => pad sizeofEntityName d.1) ∧
      t.Holds (definedPrefixes inetPton inetPton6 0 defs) := by
  have hevents : (Json.object [(ascii "subnet_activity", .array (defs.map entityJson))]).events =
      [.startMap, .mapKey (ascii "subnet_activity"), .startArray] ++
        (Json.elemsEvents (defs.map entityJson) ++ [.endArray, .endMap]) := by
    simp [Json.events, Json.membersEvents]
  have hkey : subnetActivityEvent inetPton inetPton6
      { subnetSpecInit with state := .subnetActivitySpec } (.mapKey (ascii "subnet_activity"), true) =
        some ({ subnetSpecInit with state := .subnetActivitySpecExpectMappingArray }, true) := rfl
  have hstart : Reads inetPton inetPton6 subnetSpecInit
      [.startMap, .mapKey (ascii "subnet_activity"), .startArray] []
      { subnetSpecInit with state := .subnetMappingArray } := .cons rfl (.cons hkey (.cons rfl .nil))
  have hinit : Reading { subnetSpecInit with state := .subnetMappingArray } .subnetMappingArray
      none [] := ⟨rfl, rfl, rfl, rfl⟩
  obtain ⟨ctx, entity, hreads, h⟩ := reads_entities hinit (by rw [List.length_nil]; omega) hdefs
  have hend : subnetActivityEvent inetPton inetPton6 ctx (.endArray, true) =
      some ({ ctx with state := .subnetActivitySpec }, true) := by
    simp only [subnetActivityEvent, subnetActivitySpecEndArray, h.state]
  have hafter : Reads inetPton inetPton6 ctx [.endArray, .endMap] [] { ctx with state := .init } :=
    .cons hend (.cons rfl .nil)
  have hall := hstart.append (hreads.append hafter)
  rw [List.nil_append, List.append_nil, ← hevents] at hall
  obtain ⟨hrun, hregs⟩ := hall.run
  have hinitialize : subnetActivityInitialize inetPton inetPton6
      ((Json.object [(ascii "subnet_activity", .array (defs.map entityJson))]).events.map
        fun e => (e, true)) = some (ctx.subnetMetadata, .ok) := by
    rw [subnetActivityInitialize, hrun, ← h.status]
    rfl
  refine ⟨ctx.subnetMetadata, hinitialize, ?_, ?_⟩
  · rw [h.names, List.nil_append]
  · have hholds := subnetActivityInitialize_holds hinitialize
    rw [hregs] at hholds
    exact hholds

/-! ## Lookups -/

/-- The prefixes of the document. -/
theorem mem_definedPrefixes {defs : List (List Byte × List IpNetwork)} {p : PrefixMatch} :
    p ∈ definedPrefixes inetPton inetPton6 0 defs ↔ ∃ i d, defs[i]? = some d ∧ ∃ n ∈ d.2,
      networkPrefix inetPton inetPton6 (some i) n = some p := by
  rw [definedPrefixes, List.mem_flatMap]
  constructor
  · rintro ⟨⟨d, i⟩, hd, hp⟩
    exact ⟨i, d, List.mem_zipIdx_iff_getElem?.1 hd, List.mem_filterMap.1 hp⟩
  · rintro ⟨i, d, hd, hp⟩
    exact ⟨(d, i), List.mem_zipIdx_iff_getElem?.2 hd, List.mem_filterMap.2 hp⟩

/-- The prefixes of networks have no host bits. -/
theorem zeroHostBits_definedPrefixes {defs : List (List Byte × List IpNetwork)}
    (hd : ∀ d ∈ defs, ∀ n ∈ d.2, ∃ addr, IsNetwork inetPton inetPton6 n addr) :
    ∀ p ∈ definedPrefixes inetPton inetPton6 0 defs, ∀ q, p.address = .inet q →
      ZeroHostBits q p.length := by
  intro p hp q hq
  obtain ⟨i, d, hi, n, hnd, hp⟩ := mem_definedPrefixes.1 hp
  obtain ⟨addr, haddr, rfl⟩ := Option.map_eq_some_iff.1 hp
  obtain ⟨addr', hn⟩ := hd d (List.mem_of_getElem? hi) n hnd
  obtain rfl : addr' = addr := Option.some.inj (hn.parse.symm.trans haddr)
  have hhost := hn.host
  rw [show addr' = .inet q from hq] at hhost
  exact hhost

section

variable {ipNetwork : List Byte → Option IpNetwork} {rows : List MappingRow}
  {defs : List (List Byte × List IpNetwork)}

/-- The networks of the document are those of the mappings. -/
theorem mem_definitions (h : definitions ipNetwork rows = some defs) {e : List Byte}
    {n : IpNetwork} : (∃ d ∈ defs, d.1 = e ∧ n ∈ d.2) ↔
      ∃ text, (text, e) ∈ inputMappings rows ∧ ipNetwork text = some n := by
  constructor
  · rintro ⟨d, hd, rfl, hn⟩
    obtain ⟨e, -, hdef⟩ := (mem_mapM h d).1 hd
    obtain ⟨ns, hns, rfl⟩ := Option.map_eq_some_iff.1 hdef
    obtain ⟨⟨text, e'⟩, hfilter, hnetwork⟩ := (mem_mapM hns n).1 hn
    obtain ⟨hm, he⟩ := List.mem_filter.1 hfilter
    obtain rfl : e' = e := of_decide_eq_true he
    exact ⟨text, hm, hnetwork⟩
  · rintro ⟨text, hm, hn⟩
    have he : e ∈ inputEntities rows :=
      mem_inputEntities.2 ⟨_, Dict.mem_of_mem_ofItems hm, rfl⟩
    obtain ⟨d, hdef⟩ := exists_of_mapM h he
    obtain ⟨ns, hns, rfl⟩ := Option.map_eq_some_iff.1 hdef
    refine ⟨_, (mem_mapM h _).2 ⟨e, he, hdef⟩, rfl, (mem_mapM hns n).2 ⟨(text, e), ?_, hn⟩⟩
    exact List.mem_filter.2 ⟨hm, decide_eq_true rfl⟩

/-- The document can be read, if the networks and the names of the rows can. -/
theorem definitions_readable
    (hnetwork : ∀ row ∈ rows, ∀ n, ipNetwork row.1 = some n →
      ∃ addr, IsNetwork inetPton inetPton6 n addr)
    (h : definitions ipNetwork rows = some defs)
    (hnames : ∀ row ∈ rows, row.2.length < sizeofEntityName ∧ 0 ∉ row.2) :
    ∀ d ∈ defs, d.1.length < sizeofEntityName ∧ 0 ∉ d.1 ∧
      ∀ n ∈ d.2, ∃ addr, IsNetwork inetPton inetPton6 n addr := by
  intro d hd
  obtain ⟨e, he, hdef⟩ := (mem_mapM h d).1 hd
  obtain ⟨ns, -, rfl⟩ := Option.map_eq_some_iff.1 hdef
  obtain ⟨row, hrow, rfl⟩ := mem_inputEntities.1 he
  obtain ⟨hlength, h0⟩ := hnames row hrow
  refine ⟨hlength, h0, fun n hn => ?_⟩
  obtain ⟨text, hm, hn⟩ := (mem_definitions h).1 ⟨_, hd, rfl, hn⟩
  exact hnetwork _ (Dict.mem_of_mem_ofItems hm) n hn

/-- The prefix of a mapping. -/
def mappingPrefix (ipNetwork : List Byte → Option IpNetwork) (inetPton : List Byte → Option (BitVec 32))
    (inetPton6 : List Byte → Option (BitVec 128)) (m : MappingRow) : Option PrefixMatch :=
  (ipNetwork m.1).bind (networkPrefix inetPton inetPton6 none)

/-- The prefix of a mapping is in the document, with a position for its entity. -/
theorem exists_definedPrefix (h : definitions ipNetwork rows = some defs) {m : MappingRow}
    (hm : m ∈ inputMappings rows) {p : PrefixMatch}
    (hp : mappingPrefix ipNetwork inetPton inetPton6 m = some p) :
    ∃ i, { p with associatedEntity := some i } ∈ definedPrefixes inetPton inetPton6 0 defs := by
  obtain ⟨n, hn, hp⟩ := Option.bind_eq_some_iff.1 hp
  obtain ⟨addr, haddr, rfl⟩ := Option.map_eq_some_iff.1 hp
  obtain ⟨d, hd, -, hnd⟩ := (mem_definitions h).2 ⟨m.1, hm, hn⟩
  obtain ⟨i, hi⟩ := List.mem_iff_getElem?.1 hd
  refine ⟨i, mem_definedPrefixes.2 ⟨i, d, hi, n, hnd, ?_⟩⟩
  rw [networkPrefix, haddr, Option.map_some]

/-- A prefix of the document is that of a mapping. -/
theorem exists_mapping (h : definitions ipNetwork rows = some defs) {p : PrefixMatch}
    (hp : p ∈ definedPrefixes inetPton inetPton6 0 defs) :
    ∃ m ∈ inputMappings rows,
      mappingPrefix ipNetwork inetPton inetPton6 m = some { p with associatedEntity := none } ∧
      ∃ i, p.associatedEntity = some i ∧ (defs.map Prod.fst)[i]? = some m.2 := by
  obtain ⟨i, d, hi, n, hnd, hp⟩ := mem_definedPrefixes.1 hp
  obtain ⟨addr, haddr, rfl⟩ := Option.map_eq_some_iff.1 hp
  obtain ⟨text, hm, hn⟩ := (mem_definitions h).1 ⟨d, List.mem_of_getElem? hi, rfl, hnd⟩
  refine ⟨(text, d.1), hm, ?_, i, rfl, by rw [List.getElem?_map, hi, Option.map_some]⟩
  rw [mappingPrefix, hn, Option.bind_some, networkPrefix, haddr, Option.map_some]

/-- **The entity of an address** is found in the definitions that the script prints: the one
    of the longest prefix of the rows that covers the address. -/
theorem matchPrefix_jsonData
    (hnetwork : ∀ row ∈ rows, ∀ n, ipNetwork row.1 = some n →
      ∃ addr, IsNetwork inetPton inetPton6 n addr)
    {job : Json} (hjob : jsonData ipNetwork rows = some job)
    (hroom : (inputEntities rows).length ≤ maxEntities)
    (hnames : ∀ row ∈ rows, row.2.length < sizeofEntityName ∧ 0 ∉ row.2) :
    ∃ t, subnetActivityInitialize inetPton inetPton6 (job.events.map fun e => (e, true)) =
        some (t, .ok) ∧
      ∀ a : BitVec 32, ∃ r, t.matchPrefix (.inet a) = some (.ok, r) ∧
        match r with
        | none => ∀ m ∈ inputMappings rows, ∀ p ∈ mappingPrefix ipNetwork inetPton inetPton6 m,
            ¬ p.Covers (.inet a)
        | some r => ∃ m ∈ inputMappings rows,
            ∃ p ∈ mappingPrefix ipNetwork inetPton inetPton6 m, r.key = p.key ∧ p.Covers (.inet a) ∧
              (∃ i, r.associatedEntity = some i ∧ t.entities[i]? = some (pad sizeofEntityName m.2)) ∧
              ∀ m' ∈ inputMappings rows, ∀ p' ∈ mappingPrefix ipNetwork inetPton inetPton6 m',
                p'.Covers (.inet a) → p'.length ≤ p.length := by
  obtain ⟨defs, hdefs, rfl⟩ := Option.map_eq_some_iff.1 hjob
  have hd := definitions_readable hnetwork hdefs hnames
  obtain ⟨t, hinit, hentities, hholds⟩ := reads_jsonData (by rw [length_mapM hdefs]; exact hroom) hd
  have hz := zeroHostBits_definedPrefixes fun d hmem => (hd d hmem).2.2
  refine ⟨t, hinit, fun a => ?_⟩
  obtain ⟨r, hr, hlong⟩ := hholds.longest_inet hz a
  refine ⟨r, hr, ?_⟩
  cases r with
  | none =>
    intro m hm p hp hcov
    obtain ⟨i, hi⟩ := exists_definedPrefix hdefs hm hp
    exact hlong _ hi hcov
  | some r =>
    obtain ⟨hfirst, hcov, hmax⟩ := hlong
    obtain ⟨m, hm, hp, i, hi, hname⟩ := exists_mapping hdefs (lookup_eq_some hfirst).1
    refine ⟨m, hm, _, hp, rfl, hcov, ⟨i, hi, ?_⟩, fun m' hm' p' hp' hcov' => ?_⟩
    · rw [List.getElem?_map, Option.map_eq_some_iff] at hname
      obtain ⟨d, hdi, hd2⟩ := hname
      rw [hentities, List.getElem?_map, hdi, Option.map_some, hd2]
    · obtain ⟨j, hj⟩ := exists_definedPrefix hdefs hm' hp'
      have hle := hmax _ hj hcov'
      exact hle

end

/-- Rows with 10.0.0.0/8, and with 10.1.0.0/16 twice. -/
def nestedRows : List MappingRow :=
  [(ascii "10.1.0.0/16", ascii "campus"), (ascii "10.0.0.0/8", ascii "campus"),
    (ascii "10.1.0.0/16", ascii "library")]

/-- `ip_network` for the texts of these rows. -/
def nestedNetwork (src : List Byte) : Option IpNetwork :=
  [(ascii "10.0.0.0/8", (ascii "10.0.0.0", 8)),
    (ascii "10.1.0.0/16", (ascii "10.1.0.0", 16))].lookup src

theorem nestedRows_isNetwork : ∀ row ∈ nestedRows, ∀ n, nestedNetwork row.1 = some n →
    ∃ addr, IsNetwork tenPton (fun _ => none) n addr := by
  have hten : IsNetwork tenPton (fun _ => none) (ascii "10.0.0.0", 8) (.inet 10) :=
    ⟨by decide, by decide, by decide, by decide,
      tenPrefixes_zeroHostBits _ List.mem_cons_self _ rfl⟩
  have hsixteen : IsNetwork tenPton (fun _ => none) (ascii "10.1.0.0", 16) (.inet 0x10a) :=
    ⟨by decide, by decide, by decide, by decide,
      tenPrefixes_zeroHostBits _ (List.mem_cons_of_mem _ List.mem_cons_self) _ rfl⟩
  intro row hrow n hn
  have hnetworks : ∀ row ∈ nestedRows, nestedNetwork row.1 = some (ascii "10.0.0.0", 8) ∨
      nestedNetwork row.1 = some (ascii "10.1.0.0", 16) := by decide
  rcases hnetworks row hrow with h | h
  · obtain rfl := Option.some.inj (h.symm.trans hn)
    exact ⟨_, hten⟩
  · obtain rfl := Option.some.inj (h.symm.trans hn)
    exact ⟨_, hsixteen⟩

/-- An address of 10.1.0.0/16 has the entity of the last row with that prefix. -/
theorem matchPrefix_jsonData_nested : ∃ job t,
    jsonData nestedNetwork nestedRows = some job ∧
      subnetActivityInitialize tenPton (fun _ => none) (job.events.map fun e => (e, true)) =
        some (t, .ok) ∧
      ∀ a : BitVec 32, PrefixMatch.Covers ⟨.inet 0x10a, 16, none⟩ (.inet a) →
        ∃ r i, t.matchPrefix (.inet a) = some (.ok, some r) ∧ r.associatedEntity = some i ∧
          t.entities[i]? = some (pad sizeofEntityName (ascii "library")) := by
  obtain ⟨job, hjob⟩ := Option.isSome_iff_exists.1
    (show (jsonData nestedNetwork nestedRows).isSome = true by decide)
  obtain ⟨t, hinit, hmatch⟩ := matchPrefix_jsonData nestedRows_isNetwork hjob (by decide) (by decide)
  refine ⟨job, t, hjob, hinit, fun a ha => ?_⟩
  have hlibrary : (ascii "10.1.0.0/16", ascii "library") ∈ inputMappings nestedRows := by decide
  have hsixteen : mappingPrefix nestedNetwork tenPton (fun _ => none)
      (ascii "10.1.0.0/16", ascii "library") = some ⟨.inet 0x10a, 16, none⟩ := by decide
  obtain ⟨_ | r, hr, hlong⟩ := hmatch a
  · exact absurd ha (hlong _ hlibrary _ hsixteen)
  · obtain ⟨m, hm, p, hp, -, -, ⟨i, hi, hname⟩, hmax⟩ := hlong
    refine ⟨r, i, hr, hi, hname.trans ?_⟩
    have hle : 16 ≤ p.length := hmax _ hlibrary _ hsixteen ha
    -- the other mapping has a shorter prefix
    have hothers : ∀ m ∈ inputMappings nestedRows, m.2 = ascii "library" ∨
        mappingPrefix nestedNetwork tenPton (fun _ => none) m = some ⟨.inet 10, 8, none⟩ := by
      decide
    rcases hothers m hm with h | h
    · rw [h]
    · obtain rfl := Option.some.inj (h.symm.trans hp)
      exact absurd hle (by decide)

end Honas

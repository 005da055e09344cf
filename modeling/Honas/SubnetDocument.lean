/-
  The documents that the subnet definition callbacks accept.

  `SubnetOutline.read` says for every state which events may come next.  It keeps
  what decides about later events, and the prefixes that are listed, but no table.

  `agrees_readAll`: the callbacks accept, reject and overrun as it says, and the table
  that they build has the listed prefixes for which there was memory.
-/
import Honas.SubnetBounds

namespace Honas

open Bits CString LongestMatch

/-! ## The outline of a document -/

/-- How far a document has been read: the state, the number of entities, the address
    that waits for its length, and the history of the listed prefixes. -/
structure SubnetOutline where
  state : SubnetSpecState
  entities : ℕ
  currentIpaddr : InAddr46
  listed : List ((InAddr46 × ℕ) × Bool)

/-- What an event does: it is accepted, or it stops the parser, or it does not fit in
    a buffer. -/
inductive SubnetVerdict where
  | accepted (o : SubnetOutline)
  | rejected
  | overrun

section

variable (inetPton : List Byte → Option (BitVec 32)) (inetPton6 : List Byte → Option (BitVec 128))

/-- The address that a text denotes. -/
def parseAddress (text : List Byte) : Option InAddr46 :=
  ((inetPton text).map .inet).or ((inetPton6 text).map .inet6)

/-- The events that may come next. -/
def SubnetOutline.read (o : SubnetOutline) : JsonEvent × Bool → SubnetVerdict
  | (.null, _) | (.boolean _, _) | (.double, _) => .accepted o
  | (event, allocated) =>
    match o.state, event with
    | .init, .startMap => .accepted { o with state := .subnetActivitySpec }
    | .subnetActivitySpec, .mapKey key =>
      if key = ascii "subnet_activity" then
        .accepted { o with state := .subnetActivitySpecExpectMappingArray }
      else .accepted o
    | .subnetActivitySpec, .endMap => .accepted { o with state := .init }
    | .subnetActivitySpecExpectMappingArray, .startArray =>
      .accepted { o with state := .subnetMappingArray }
    | .subnetMappingArray, .startMap =>
      if o.entities ≥ maxEntities then .overrun
      else if allocated then
        .accepted { o with state := .subnetMapping, entities := o.entities + 1 }
      else .rejected
    | .subnetMappingArray, .endArray => .accepted { o with state := .subnetActivitySpec }
    | .subnetMapping, .mapKey key =>
      if key = ascii "entity" then .accepted { o with state := .subnetMappingExpectEntity }
      else if key = ascii "prefixes" then
        .accepted { o with state := .subnetMappingExpectPrefixesArray }
      else .accepted o
    | .subnetMapping, .endMap => .accepted { o with state := .subnetMappingArray }
    | .subnetMappingExpectEntity, .string name =>
      if name.length ≤ sizeofEntityName then .accepted { o with state := .subnetMapping }
      else .overrun
    | .subnetMappingExpectPrefixesArray, .startArray =>
      .accepted { o with state := .prefixMappingArray }
    | .prefixMappingArray, .startMap => .accepted { o with state := .prefixMapping }
    | .prefixMappingArray, .endArray => .accepted { o with state := .subnetMapping }
    | .prefixMapping, .mapKey text =>
      if text.length ≤ 127 ∨ text.length = 128 ∧ 0 ∈ text then
        match parseAddress inetPton inetPton6 (truncate text) with
        | some addr =>
          .accepted { o with state := .prefixMappingExpectLength, currentIpaddr := addr }
        | none => .rejected
      else .overrun
    | .prefixMapping, .endMap => .accepted { o with state := .prefixMappingArray }
    | .prefixMappingExpectLength, .integer v =>
      if o.currentIpaddr.validLength v.toInt then
        .accepted { o with
          state := .prefixMapping
          listed := ((o.currentIpaddr, v.toInt.toNat), allocated) :: o.listed }
      else .rejected
    | _, _ => .rejected

/-- An event after those that were accepted. -/
def SubnetVerdict.next : SubnetVerdict → JsonEvent × Bool → SubnetVerdict
  | .accepted o, event => o.read inetPton inetPton6 event
  | .rejected, _ => .rejected
  | .overrun, _ => .overrun

/-- Before the first event. -/
def subnetOutlineInit : SubnetOutline where
  state := .init
  entities := 0
  currentIpaddr := .other 0
  listed := []

/-- The events of a document. -/
def readAll (events : List (JsonEvent × Bool)) : SubnetVerdict :=
  events.foldl (SubnetVerdict.next inetPton inetPton6) (.accepted subnetOutlineInit)

end

/-! ## The callbacks follow the outline -/

/-- The context after the events that are accepted. -/
structure Tracks (ctx : SubnetSpecContext) (o : SubnetOutline) : Prop where
  state : ctx.state = o.state
  entities : ctx.subnetMetadata.entities.length = o.entities
  currentIpaddr : ctx.currentIpaddr = o.currentIpaddr
  names : ∀ name ∈ ctx.subnetMetadata.entities, name.length = sizeofEntityName
  mapping : o.state.inMapping → o.entities ≠ 0
  prefixes : ctx.subnetMetadata.prefixes.map PrefixMatch.key = (stored o.listed).reverse
  registered : ctx.subnetMetadata.registeredPrefixes = (stored o.listed).length + repeats o.listed
  status : ctx.saStatusCode = .ok ↔ ¬ NewestLost o.listed

/-- The result of the callbacks for a verdict. -/
def Agrees (result : Option (SubnetSpecContext × Bool)) : SubnetVerdict → Prop
  | .accepted o => ∃ ctx, result = some (ctx, true) ∧ Tracks ctx o
  | .rejected => ∃ ctx, result = some (ctx, false) ∧ ctx.saStatusCode ≠ .ok
  | .overrun => result = none

section

variable {ctx : SubnetSpecContext} {o : SubnetOutline}

/-- A callback that only changes the state. -/
theorem Tracks.goto (h : Tracks ctx o) {state : SubnetSpecState}
    (hm : state.inMapping → o.state.inMapping) :
    Tracks { ctx with state := state } { o with state := state } :=
  ⟨rfl, h.entities, h.currentIpaddr, h.names, fun hin => h.mapping (hm hin), h.prefixes,
    h.registered, h.status⟩

/-- A callback that only changes the state, to one outside of a mapping. -/
theorem Tracks.leave (h : Tracks ctx o) {state : SubnetSpecState} (hout : state.inMapping = false) :
    Tracks { ctx with state := state } { o with state := state } :=
  h.goto fun hin => absurd hin (hout ▸ Bool.false_ne_true)

@[simp]
theorem SubnetTable.register_prefixes (t : SubnetTable) (addr : InAddr46) (plen : ℕ) :
    (t.register addr plen).prefixes = t.prefixes := by
  cases addr <;> rfl

@[simp]
theorem SubnetTable.register_registeredPrefixes (t : SubnetTable) (addr : InAddr46) (plen : ℕ) :
    (t.register addr plen).registeredPrefixes = t.registeredPrefixes + 1 := by
  cases addr <;> rfl

theorem InAddr46.validLength_toInt {addr : InAddr46} {v : BitVec 64}
    (hv : addr.validLength v.toInt) : u32 v.toNat = v.toInt.toNat := by
  have hrange := validLength_range hv
  have heq := u32_toNat_eq hrange.1 hrange.2
  omega

/-- A prefix that is in the table afterwards counts. -/
theorem Tracks.register (h : Tracks ctx o) (hm : o.state.inMapping) {prefixes : List PrefixMatch}
    {listed : List ((InAddr46 × ℕ) × Bool)} (plen : ℕ)
    (hkeys : prefixes.map PrefixMatch.key = (stored listed).reverse)
    (hcount : (stored listed).length + repeats listed =
      (stored o.listed).length + repeats o.listed + 1) (hlost : ¬ NewestLost listed) :
    Tracks
      { ctx with
        state := .prefixMapping
        saStatusCode := .ok
        subnetMetadata :=
          ({ ctx.subnetMetadata with prefixes := prefixes } : SubnetTable).register o.currentIpaddr plen
        currentIpaddr := o.currentIpaddr }
      { o with state := .prefixMapping, listed := listed } := by
  refine ⟨rfl, ?_, rfl, ?_, fun _ => h.mapping hm, ?_, ?_, iff_of_true rfl hlost⟩
  · rw [SubnetTable.register_entities]
    exact h.entities
  · rw [SubnetTable.register_entities]
    exact h.names
  · rw [SubnetTable.register_prefixes]
    exact hkeys
  · rw [SubnetTable.register_registeredPrefixes, hcount]
    exact congrArg (· + 1) h.registered

/-- **A listed prefix** gets into the table if it is there already or if there is memory
    for it, and counts then. -/
theorem Tracks.addPrefix (h : Tracks ctx o) (hm : o.state.inMapping) {plen : ℕ} {allocated : Bool}
    {r : List PrefixMatch × SubnetActivityError}
    (hr : addPrefixHh ctx.subnetMetadata.prefixes o.currentIpaddr plen ctx.currentEntity allocated =
      r) :
    Tracks
      { ctx with
        state := .prefixMapping
        saStatusCode := r.2
        subnetMetadata :=
          if r.2 = .ok then
            ({ ctx.subnetMetadata with prefixes := r.1 } : SubnetTable).register o.currentIpaddr plen
          else { ctx.subnetMetadata with prefixes := r.1 }
        currentIpaddr := o.currentIpaddr }
      { o with
        state := .prefixMapping
        listed := ((o.currentIpaddr, plen), allocated) :: o.listed } := by
  have hsome : (lookup PrefixMatch.key ctx.subnetMetadata.prefixes (o.currentIpaddr, plen)).isSome ↔
      (o.currentIpaddr, plen) ∈ stored o.listed := by
    rw [isSome_lookup, h.prefixes, List.mem_reverse]
  rw [addPrefixHh] at hr
  cases hl : lookup PrefixMatch.key ctx.subnetMetadata.prefixes (o.currentIpaddr, plen) with
  | some m =>
    have hmem : (o.currentIpaddr, plen) ∈ stored o.listed := hsome.1 (by rw [hl]; rfl)
    rw [hl] at hr
    obtain rfl := hr
    refine h.register hm plen ?_ ?_ fun hlost => hlost.2 (mem_stored.1 hmem)
    · rw [stored_of_mem hmem]
      exact h.prefixes
    · rw [stored_of_mem hmem, repeats, if_pos hmem, Nat.add_assoc]
  | none =>
    have hmem : (o.currentIpaddr, plen) ∉ stored o.listed := fun hmem => by
      have hyes := hsome.2 hmem
      rw [hl] at hyes
      cases hyes
    rw [hl] at hr
    cases allocated with
    | true =>
      obtain rfl : (ctx.subnetMetadata.prefixes ++ [⟨o.currentIpaddr, plen, ctx.currentEntity⟩],
        SubnetActivityError.ok) = r := hr
      refine h.register hm plen ?_ ?_ fun hlost => Bool.noConfusion hlost.1
      · rw [stored_of_not_mem hmem, List.map_append, h.prefixes, List.reverse_cons]
        rfl
      · rw [stored_of_not_mem hmem, repeats, if_neg hmem, List.length_cons]
        omega
    | false =>
      obtain rfl := hr
      refine ⟨rfl, h.entities, rfl, h.names, fun _ => h.mapping hm, h.prefixes, ?_, ?_⟩
      · rw [stored_full, repeats, if_neg hmem]
        exact h.registered
      · refine iff_of_false (by rintro ⟨⟩) fun hnot => hnot ⟨rfl, fun htrue => hmem (mem_stored.2 htrue)⟩

end

section

variable {inetPton : List Byte → Option (BitVec 32)} {inetPton6 : List Byte → Option (BitVec 128)}
  {ctx : SubnetSpecContext} {o : SubnetOutline}

/-- **A number.** -/
theorem Tracks.integer (h : Tracks ctx o) (v : BitVec 64) (allocated : Bool) :
    Agrees (some (subnetActivitySpecInteger ctx v allocated))
      (o.read inetPton inetPton6 (.integer v, allocated)) := by
  rw [subnetActivitySpecInteger, SubnetOutline.read.eq_def, h.state, h.currentIpaddr]
  cases hs : o.state with
  | prefixMappingExpectLength =>
    dsimp only
    by_cases hv : o.currentIpaddr.validLength v.toInt
    · rw [if_pos hv, if_pos hv, InAddr46.validLength_toInt hv]
      exact ⟨_, rfl, h.addPrefix (by rw [hs]; rfl) rfl⟩
    · rw [if_neg hv, if_neg hv]
      exact ⟨_, rfl, by rintro ⟨⟩⟩
  | _ => exact ⟨_, rfl, by rintro ⟨⟩⟩

/-- **The name of an entity.** -/
theorem Tracks.string (h : Tracks ctx o) (s : List Byte) (allocated : Bool) :
    Agrees (subnetActivitySpecString ctx s) (o.read inetPton inetPton6 (.string s, allocated)) := by
  rw [subnetActivitySpecString, SubnetOutline.read.eq_def, h.state]
  cases hs : o.state with
  | subnetMappingExpectEntity =>
    have hne : ctx.subnetMetadata.entities ≠ [] := by
      rw [Ne, ← List.length_eq_zero_iff, h.entities]
      exact h.mapping (by rw [hs]; rfl)
    have hlen := h.names _ (List.getLast_mem hne)
    have hread := strnread_length s []
    rw [List.append_nil] at hread
    dsimp only
    rw [List.getLast?_eq_some_getLast hne, Option.bind_eq_bind, Option.bind_some, strncpy, hread,
      Option.bind_eq_bind, Option.bind_some, hlen]
    by_cases hfit : s.length ≤ sizeofEntityName
    · rw [if_pos hfit, if_pos hfit]
      have ht := length_truncate_le s
      refine ⟨_, rfl, rfl, ?_, h.currentIpaddr, fun name hn => ?_, fun _ => ?_, h.prefixes,
        h.registered, h.status⟩
      · rw [List.length_append, List.length_dropLast, List.length_singleton, ← h.entities]
        exact Nat.sub_add_cancel (List.length_pos_iff.2 hne)
      · rcases List.mem_append.1 hn with hn | hn
        · exact h.names name (List.mem_of_mem_dropLast hn)
        · rw [List.mem_singleton.1 hn, List.length_append, List.length_append,
            List.length_replicate, List.length_drop, hlen]
          omega
      · exact h.mapping (by rw [hs]; rfl)
    · rw [if_neg hfit, if_neg hfit]
      rfl
  | _ => exact ⟨_, rfl, by rintro ⟨⟩⟩

/-- **A key.** -/
theorem Tracks.mapKey (h : Tracks ctx o) (s : List Byte) (allocated : Bool) :
    Agrees (subnetActivitySpecMapKey inetPton inetPton6 ctx s)
      (o.read inetPton inetPton6 (.mapKey s, allocated)) := by
  rw [subnetActivitySpecMapKey, SubnetOutline.read.eq_def, h.state]
  cases hs : o.state with
  | subnetActivitySpec =>
    dsimp only
    split_ifs
    · exact ⟨_, rfl, h.leave rfl⟩
    · exact ⟨_, rfl, h⟩
  | subnetMapping =>
    dsimp only
    split_ifs
    · exact ⟨_, rfl, h.goto fun _ => by rw [hs]; rfl⟩
    · exact ⟨_, rfl, h.goto fun _ => by rw [hs]; rfl⟩
    · exact ⟨_, rfl, h⟩
  | prefixMapping =>
    dsimp only
    by_cases hfit : s.length ≤ 127 ∨ s.length = 128 ∧ 0 ∈ s
    · have hle : s.length ≤ 128 := by omega
      have hshort : (truncate s).length < 128 := by
        have ht := length_truncate_le s
        rcases hfit with hlt | ⟨heq, h0⟩
        · omega
        · obtain ⟨r, hr⟩ := exists_truncate h0
          have hlen := congrArg List.length hr
          rw [List.length_append, List.length_cons] at hlen
          omega
      have htake : (pad 128 (truncate s)).take (truncate s).length = truncate s := by
        rw [pad, List.take_left]
      rw [if_pos hfit, strncpy_zeros hle, Option.bind_eq_bind, Option.bind_some,
        strlen_pad 128 (not_mem_truncate s) hshort, Option.bind_eq_bind, Option.bind_some, htake,
        parseAddress]
      have haddr : ∀ addr, Tracks
          { ctx with currentIpaddr := addr, state := .prefixMappingExpectLength }
          { o with state := .prefixMappingExpectLength, currentIpaddr := addr } := fun addr =>
        ⟨rfl, h.entities, rfl, h.names, fun _ => h.mapping (by rw [hs]; rfl), h.prefixes,
          h.registered, h.status⟩
      cases inetPton (truncate s) with
      | some addr4 => exact ⟨_, rfl, haddr (.inet addr4)⟩
      | none =>
        cases inetPton6 (truncate s) with
        | some addr6 => exact ⟨_, rfl, haddr (.inet6 addr6)⟩
        | none => exact ⟨_, rfl, by rintro ⟨⟩⟩
    · rw [if_neg hfit]
      rcases hb : strncpy (List.replicate 128 0) s s.length with _ | b
      · rfl
      · -- the buffer is full, and `inet_pton` reads past its end
        have hlen := strlen_eq_none (strncpy_not_fits List.length_replicate hfit hb)
        simp only [Option.bind_eq_bind, Option.bind_some, hlen]
        rfl
  | _ => exact ⟨_, rfl, by rintro ⟨⟩⟩

theorem Tracks.startMap (h : Tracks ctx o) (allocated : Bool) :
    Agrees (subnetActivitySpecStartMap ctx allocated)
      (o.read inetPton inetPton6 (.startMap, allocated)) := by
  rw [subnetActivitySpecStartMap, SubnetOutline.read.eq_def, h.state]
  cases hs : o.state with
  | init => exact ⟨_, rfl, h.leave rfl⟩
  | subnetMappingArray =>
    dsimp only
    rw [h.entities]
    by_cases hfull : o.entities ≥ maxEntities
    · rw [if_pos hfull, if_pos hfull]
      rfl
    · rw [if_neg hfull, if_neg hfull]
      cases allocated with
      | true =>
        refine ⟨_, rfl, rfl, ?_, h.currentIpaddr, fun name hn => ?_, fun _ => Nat.succ_ne_zero _,
          h.prefixes, h.registered, h.status⟩
        · rw [List.length_append, List.length_singleton, h.entities]
        · rcases List.mem_append.1 hn with hn | hn
          · exact h.names name hn
          · rw [List.mem_singleton.1 hn, List.length_replicate]
      | false => exact ⟨_, rfl, by rintro ⟨⟩⟩
  | prefixMappingArray => exact ⟨_, rfl, h.goto fun _ => by rw [hs]; rfl⟩
  | _ => exact ⟨_, rfl, by rintro ⟨⟩⟩

theorem Tracks.endMap (h : Tracks ctx o) (allocated : Bool) :
    Agrees (some (subnetActivitySpecEndMap ctx))
      (o.read inetPton inetPton6 (.endMap, allocated)) := by
  rw [subnetActivitySpecEndMap, SubnetOutline.read.eq_def, h.state]
  cases hs : o.state with
  | subnetActivitySpec => exact ⟨_, rfl, h.leave rfl⟩
  | subnetMapping => exact ⟨_, rfl, h.leave rfl⟩
  | prefixMapping => exact ⟨_, rfl, h.goto fun _ => by rw [hs]; rfl⟩
  | _ => exact ⟨_, rfl, by rintro ⟨⟩⟩

theorem Tracks.startArray (h : Tracks ctx o) (allocated : Bool) :
    Agrees (some (subnetActivitySpecStartArray ctx))
      (o.read inetPton inetPton6 (.startArray, allocated)) := by
  rw [subnetActivitySpecStartArray, SubnetOutline.read.eq_def, h.state]
  cases hs : o.state with
  | subnetActivitySpecExpectMappingArray => exact ⟨_, rfl, h.leave rfl⟩
  | subnetMappingExpectPrefixesArray => exact ⟨_, rfl, h.goto fun _ => by rw [hs]; rfl⟩
  | _ => exact ⟨_, rfl, by rintro ⟨⟩⟩

theorem Tracks.endArray (h : Tracks ctx o) (allocated : Bool) :
    Agrees (some (subnetActivitySpecEndArray ctx))
      (o.read inetPton inetPton6 (.endArray, allocated)) := by
  rw [subnetActivitySpecEndArray, SubnetOutline.read.eq_def, h.state]
  cases hs : o.state with
  | subnetMappingArray => exact ⟨_, rfl, h.leave rfl⟩
  | prefixMappingArray => exact ⟨_, rfl, h.goto fun _ => by rw [hs]; rfl⟩
  | _ => exact ⟨_, rfl, by rintro ⟨⟩⟩

/-- **One event.** -/
theorem Tracks.event (h : Tracks ctx o) (event : JsonEvent × Bool) :
    Agrees (subnetActivityEvent inetPton inetPton6 ctx event) (o.read inetPton inetPton6 event) := by
  obtain ⟨event, allocated⟩ := event
  cases event with
  | integer v => exact h.integer v allocated
  | string s => exact h.string s allocated
  | startMap => exact h.startMap allocated
  | mapKey s => exact h.mapKey s allocated
  | endMap => exact h.endMap allocated
  | startArray => exact h.startArray allocated
  | endArray => exact h.endArray allocated
  | _ => exact ⟨_, rfl, h⟩

/-! ## Runs -/

/-- The next event. -/
theorem Agrees.next {result : Option (SubnetSpecContext × Bool)} {verdict : SubnetVerdict}
    (h : Agrees result verdict) (event : JsonEvent × Bool) :
    Agrees (result.bind fun s => subnetActivityStep inetPton inetPton6 s event)
      (verdict.next inetPton inetPton6 event) := by
  cases verdict with
  | accepted o =>
    obtain ⟨ctx, rfl, htracks⟩ := h
    exact htracks.event event
  | rejected =>
    obtain ⟨ctx, rfl, hstatus⟩ := h
    exact ⟨ctx, rfl, hstatus⟩
  | overrun =>
    rw [show result = none from h]
    rfl

theorem Agrees.run : ∀ (events : List (JsonEvent × Bool))
    {result : Option (SubnetSpecContext × Bool)} {verdict : SubnetVerdict}, Agrees result verdict →
    Agrees (result.bind fun s => events.foldlM (subnetActivityStep inetPton inetPton6) s)
      (events.foldl (SubnetVerdict.next inetPton inetPton6) verdict)
  | [], result, verdict, h => by
    rw [List.foldl_nil]
    cases result with
    | none => exact h
    | some s => exact h
  | event :: events, result, verdict, h => by
    have hnext : Agrees (result.bind fun s => subnetActivityStep inetPton inetPton6 s event)
        (verdict.next inetPton inetPton6 event) := h.next event
    have hrun := Agrees.run events hnext
    rw [Option.bind_assoc] at hrun
    exact hrun

theorem tracks_init : Tracks subnetSpecInit subnetOutlineInit where
  state := rfl
  entities := rfl
  currentIpaddr := rfl
  names := nofun
  mapping := nofun
  prefixes := rfl
  registered := rfl
  status := iff_of_true rfl id

/-- **The callbacks follow the outline** of every document. -/
theorem agrees_readAll (events : List (JsonEvent × Bool)) :
    Agrees (events.foldlM (subnetActivityStep inetPton inetPton6) (subnetSpecInit, true))
      (readAll inetPton inetPton6 events) := by
  have hinit : Agrees (some (subnetSpecInit, true)) (.accepted subnetOutlineInit) :=
    ⟨_, rfl, tracks_init⟩
  exact hinit.run events

end

end Honas

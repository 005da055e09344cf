/-
  The buffers of the subnet definition callbacks.

  The callbacks store entities in an array of 1024 entries, the name of an entity in
  128 bytes, and copy the text of an address to 128 bytes.  They compare no count or
  length with these sizes.

  `subnetCallbacks_inside_iff`: all writes are inside, with a terminator in each
  buffer, exactly if no document has more than 1024 mappings, nor a name or an
  address that does not fit.
-/
import Honas.SubnetSpec
import Honas.Lib.Run

namespace Honas

open Bits CString

/-! ## Which events fit -/

/-- A string fits in a buffer of 128 bytes, with a terminator. -/
def FitsName (s : List Byte) : Prop := s.length ≤ 127 ∨ s.length = 128 ∧ 0 ∈ s

/-- An event fits in the buffers, in the state in which its callback is called. -/
def SubnetSpecContext.Fits (ctx : SubnetSpecContext) (event : JsonEvent) : Prop :=
  match ctx.state, event with
  | .subnetMappingArray, .startMap => ctx.subnetMetadata.entities.length < maxEntities
  | .subnetMappingExpectEntity, .string s => FitsName s
  | .prefixMapping, .mapKey s => FitsName s
  | _, _ => True

/-- The entities are inside of their array, their names inside of their buffers with
    a terminator, and a callback that stops the parser sets an error status. -/
structure InsideBuffers (s : SubnetSpecContext × Bool) : Prop where
  entities : s.1.subnetMetadata.entities.length ≤ maxEntities
  names : ∀ name ∈ s.1.subnetMetadata.entities, name.length = sizeofEntityName ∧ 0 ∈ name
  status : s.2 = false → s.1.saStatusCode ≠ .ok

/-- The states inside of a mapping. -/
def SubnetSpecState.inMapping : SubnetSpecState → Bool
  | .subnetMapping | .subnetMappingExpectEntity | .subnetMappingExpectPrefixesArray
  | .prefixMappingArray | .prefixMapping | .prefixMappingExpectPrefix
  | .prefixMappingExpectLength => true
  | _ => false

/-- What the events that fit keep: the last byte of every name is a terminator, and
    the entity of a mapping is in the array. -/
structure NamesTerminated (s : SubnetSpecContext × Bool) : Prop where
  entities : s.1.subnetMetadata.entities.length ≤ maxEntities
  names : ∀ name ∈ s.1.subnetMetadata.entities, name.length = sizeofEntityName ∧
    name.getLast? = some 0
  mapping : s.1.state.inMapping → s.1.subnetMetadata.entities ≠ []
  status : s.2 = false → s.1.saStatusCode ≠ .ok

theorem NamesTerminated.insideBuffers {s : SubnetSpecContext × Bool} (h : NamesTerminated s) :
    InsideBuffers s :=
  ⟨h.entities, fun name hn => ⟨(h.names name hn).1, List.mem_of_getLast? (h.names name hn).2⟩,
    h.status⟩

/-! ## Copies -/

/-- **Copying a string that fits** keeps the size of the buffer, and a terminator in its
    last byte. -/
theorem strncpy_fits {dst s : List Byte} (hd : dst.length = 128) (hl : dst.getLast? = some 0)
    (h : FitsName s) : ∃ b, strncpy dst s s.length = some b ∧ b.length = 128 ∧
      b.getLast? = some 0 := by
  have hread := strnread_length s []
  rw [List.append_nil] at hread
  have ht := length_truncate_le s
  have hle : s.length ≤ 128 := by
    rcases h with h | ⟨h, -⟩ <;> omega
  have hfill : (truncate s ++ List.replicate (s.length - (truncate s).length) 0).length =
      s.length := by
    rw [List.length_append, List.length_replicate]
    omega
  refine ⟨_, by rw [strncpy, hread]; exact if_pos (by omega), ?_, ?_⟩
  · rw [List.length_append, hfill, List.length_drop]
    omega
  rcases h with h | ⟨h, h0⟩
  · have hne : dst.drop s.length ≠ [] := by
      rw [Ne, List.drop_eq_nil_iff]
      omega
    rw [List.getLast?_append_of_ne_nil _ hne, List.getLast?_drop, if_neg (by omega), hl]
  · -- the zero byte is followed by zeros up to the end
    obtain ⟨r, hr⟩ := exists_truncate h0
    have hlen := congrArg List.length hr
    rw [List.length_append, List.length_cons] at hlen
    rw [List.drop_of_length_le (by omega), List.append_nil,
      show s.length - (truncate s).length = r.length + 1 by omega, List.replicate_succ',
      ← List.append_assoc, List.getLast?_concat]

/-- **A string that does not fit** is written outside of the buffer, or fills it without
    a terminator. -/
theorem strncpy_not_fits {dst s b : List Byte} (hd : dst.length = 128) (h : ¬ FitsName s)
    (hb : strncpy dst s s.length = some b) : 0 ∉ b := by
  have hread := strnread_length s []
  rw [List.append_nil] at hread
  rw [strncpy, hread, Option.bind_eq_bind, Option.bind_some] at hb
  split_ifs at hb with hle
  obtain rfl := Option.some.inj hb
  rw [FitsName, not_or, not_and] at h
  have hlen : s.length = 128 := by omega
  have h0 := h.2 hlen
  rw [truncate_eq_self h0, Nat.sub_self, List.replicate_zero, List.append_nil,
    List.drop_of_length_le (by omega), List.append_nil]
  exact h0

/-! ## The callbacks -/

section

variable {ctx : SubnetSpecContext}

/-- A callback that keeps the entities. -/
theorem NamesTerminated.keep (h : NamesTerminated (ctx, true)) {ctx' : SubnetSpecContext}
    (he : ctx'.subnetMetadata.entities = ctx.subnetMetadata.entities)
    (hm : ctx'.state.inMapping → ctx.state.inMapping) : NamesTerminated (ctx', true) :=
  ⟨he ▸ h.entities, he ▸ h.names, fun hin => he ▸ h.mapping (hm hin),
    fun hok => Bool.noConfusion hok⟩

/-- A callback that keeps the entities and ends outside of a mapping. -/
theorem NamesTerminated.leave (h : NamesTerminated (ctx, true)) {ctx' : SubnetSpecContext}
    (he : ctx'.subnetMetadata.entities = ctx.subnetMetadata.entities)
    (hout : ctx'.state.inMapping = false) : NamesTerminated (ctx', true) :=
  h.keep he fun hin => absurd hin (hout ▸ Bool.false_ne_true)

/-- A callback that keeps the entities and stops the parser with an error. -/
theorem NamesTerminated.stop (h : NamesTerminated (ctx, true)) {ctx' : SubnetSpecContext}
    (he : ctx'.subnetMetadata.entities = ctx.subnetMetadata.entities)
    (hm : ctx'.state.inMapping → ctx.state.inMapping) (hs : ctx'.saStatusCode ≠ .ok) :
    NamesTerminated (ctx', false) :=
  ⟨he ▸ h.entities, he ▸ h.names, fun hin => he ▸ h.mapping (hm hin), fun _ => hs⟩

theorem SubnetTable.register_entities (t : SubnetTable) (addr : InAddr46) (plen : ℕ) :
    (t.register addr plen).entities = t.entities := by
  cases addr <;> rfl

theorem NamesTerminated.integer (h : NamesTerminated (ctx, true)) (v : BitVec 64)
    (allocated : Bool) : NamesTerminated (subnetActivitySpecInteger ctx v allocated) := by
  rw [subnetActivitySpecInteger]
  cases hs : ctx.state with
  | prefixMappingExpectLength =>
    dsimp only
    by_cases hv : ctx.currentIpaddr.validLength v.toInt
    · rw [if_pos hv]
      refine h.keep ?_ fun _ => by rw [hs]; rfl
      dsimp only
      split_ifs
      · rw [SubnetTable.register_entities]
      · rfl
    · rw [if_neg hv]
      exact h.stop rfl (fun hin => by rw [hs]; exact hin) (by rintro ⟨⟩)
  | _ => exact h.stop rfl (fun hin => by rw [hs]; exact hin) (by rintro ⟨⟩)

theorem NamesTerminated.endMap (h : NamesTerminated (ctx, true)) :
    NamesTerminated (subnetActivitySpecEndMap ctx) := by
  rw [subnetActivitySpecEndMap]
  cases hs : ctx.state with
  | subnetActivitySpec => exact h.leave rfl rfl
  | subnetMapping => exact h.leave rfl rfl
  | prefixMapping => exact h.keep rfl fun _ => by rw [hs]; rfl
  | _ => exact h.stop rfl (fun hin => by rw [hs]; exact hin) (by rintro ⟨⟩)

theorem NamesTerminated.startArray (h : NamesTerminated (ctx, true)) :
    NamesTerminated (subnetActivitySpecStartArray ctx) := by
  rw [subnetActivitySpecStartArray]
  cases hs : ctx.state with
  | subnetActivitySpecExpectMappingArray => exact h.leave rfl rfl
  | subnetMappingExpectPrefixesArray => exact h.keep rfl fun _ => by rw [hs]; rfl
  | _ => exact h.stop rfl (fun hin => by rw [hs]; exact hin) (by rintro ⟨⟩)

theorem NamesTerminated.endArray (h : NamesTerminated (ctx, true)) :
    NamesTerminated (subnetActivitySpecEndArray ctx) := by
  rw [subnetActivitySpecEndArray]
  cases hs : ctx.state with
  | subnetMappingArray => exact h.leave rfl rfl
  | prefixMappingArray => exact h.keep rfl fun _ => by rw [hs]; rfl
  | _ => exact h.stop rfl (fun hin => by rw [hs]; exact hin) (by rintro ⟨⟩)

/-- **A new mapping** needs a free entry. -/
theorem NamesTerminated.startMap (h : NamesTerminated (ctx, true)) (allocated : Bool) :
    (ctx.Fits .startMap → ∃ s', subnetActivitySpecStartMap ctx allocated = some s' ∧
      NamesTerminated s') ∧
    (¬ ctx.Fits .startMap → subnetActivitySpecStartMap ctx allocated = none) := by
  rw [subnetActivitySpecStartMap, SubnetSpecContext.Fits.eq_def]
  cases hs : ctx.state with
  | subnetMappingArray =>
    refine ⟨fun hlt => ?_, fun hge => if_pos (not_lt.1 hge)⟩
    dsimp only
    rw [if_neg (not_le.2 hlt)]
    cases allocated with
    | true =>
      refine ⟨_, if_pos rfl, ?_, fun name hn => ?_, fun _ => ?_, fun hok => Bool.noConfusion hok⟩
      · rw [List.length_append, List.length_singleton]
        exact hlt
      · rcases List.mem_append.1 hn with hn | hn
        · exact h.names name hn
        · obtain rfl := List.mem_singleton.1 hn
          exact ⟨List.length_replicate, rfl⟩
      · exact List.append_ne_nil_of_right_ne_nil _ (List.cons_ne_nil _ _)
    | false => exact ⟨_, if_neg Bool.false_ne_true, h.stop rfl (fun hin => absurd hin Bool.false_ne_true) (by rintro ⟨⟩)⟩
  | init => exact ⟨fun _ => ⟨_, rfl, h.leave rfl rfl⟩, fun hf => absurd trivial hf⟩
  | prefixMappingArray =>
    exact ⟨fun _ => ⟨_, rfl, h.keep rfl fun _ => by rw [hs]; rfl⟩,
      fun hf => absurd trivial hf⟩
  | _ =>
    exact ⟨fun _ => ⟨_, rfl, h.stop rfl (fun hin => by rw [hs]; exact hin) (by rintro ⟨⟩)⟩,
      fun hf => absurd trivial hf⟩

/-- **The name of an entity.** -/
theorem NamesTerminated.string (h : NamesTerminated (ctx, true)) (s : List Byte) :
    (ctx.Fits (.string s) → ∃ s', subnetActivitySpecString ctx s = some s' ∧ NamesTerminated s') ∧
    (¬ ctx.Fits (.string s) → ∀ s', subnetActivitySpecString ctx s = some s' →
      ¬ InsideBuffers s') := by
  rw [subnetActivitySpecString, SubnetSpecContext.Fits.eq_def]
  cases hs : ctx.state with
  | subnetMappingExpectEntity =>
    have hne : ctx.subnetMetadata.entities ≠ [] := h.mapping (by rw [hs]; rfl)
    have hlast := List.getLast?_eq_some_getLast hne
    set name := ctx.subnetMetadata.entities.getLast hne
    obtain ⟨hlen, h0⟩ := h.names name (List.getLast_mem hne)
    dsimp only
    rw [hlast]
    simp only [Option.bind_eq_bind, Option.bind_some]
    have hsize := List.length_pos_iff.2 hne
    have hle := h.entities
    dsimp only at hle
    constructor
    · intro hf
      obtain ⟨b, hb, hblen, hb0⟩ := strncpy_fits hlen h0 hf
      refine ⟨_, by rw [hb]; rfl, ?_⟩
      refine ⟨?_, fun n hn => ?_, fun _ => ?_, fun hok => Bool.noConfusion hok⟩
      · rw [List.length_append, List.length_dropLast, List.length_singleton]
        omega
      · rcases List.mem_append.1 hn with hn | hn
        · exact h.names n (List.mem_of_mem_dropLast hn)
        · obtain rfl := List.mem_singleton.1 hn
          exact ⟨hblen, hb0⟩
      · exact List.append_ne_nil_of_right_ne_nil _ (List.cons_ne_nil _ _)
    · intro hf s' hs' hinside
      obtain ⟨b, hb, hs'⟩ := Option.bind_eq_some_iff.1 hs'
      obtain rfl := Option.some.inj hs'
      exact strncpy_not_fits hlen hf hb (hinside.names b
        (List.mem_append_right _ (List.mem_singleton_self b))).2
  | _ =>
    exact ⟨fun _ => ⟨_, rfl, h.stop rfl (fun hin => by rw [hs]; exact hin) (by rintro ⟨⟩)⟩,
      fun hf => absurd trivial hf⟩

/-- **A key**: the text of an address needs room for its terminator. -/
theorem NamesTerminated.mapKey (inetPton : List Byte → Option (BitVec 32))
    (inetPton6 : List Byte → Option (BitVec 128)) (h : NamesTerminated (ctx, true)) (s : List Byte) :
    (ctx.Fits (.mapKey s) → ∃ s', subnetActivitySpecMapKey inetPton inetPton6 ctx s = some s' ∧
      NamesTerminated s') ∧
    (¬ ctx.Fits (.mapKey s) → subnetActivitySpecMapKey inetPton inetPton6 ctx s = none) := by
  have hd : (List.replicate 128 (0 : Byte)).length = 128 := List.length_replicate
  rw [subnetActivitySpecMapKey, SubnetSpecContext.Fits.eq_def]
  cases hs : ctx.state with
  | subnetActivitySpec =>
    refine ⟨fun _ => ?_, fun hf => absurd trivial hf⟩
    dsimp only
    split_ifs
    · exact ⟨_, rfl, h.leave rfl rfl⟩
    · exact ⟨_, rfl, h.keep rfl id⟩
  | subnetMapping =>
    refine ⟨fun _ => ?_, fun hf => absurd trivial hf⟩
    dsimp only
    split_ifs
    · exact ⟨_, rfl, h.keep rfl fun _ => by rw [hs]; rfl⟩
    · exact ⟨_, rfl, h.keep rfl fun _ => by rw [hs]; rfl⟩
    · exact ⟨_, rfl, h.keep rfl id⟩
  | prefixMapping =>
    dsimp only
    constructor
    · intro hf
      obtain ⟨b, hb, -, hb0⟩ := strncpy_fits hd rfl hf
      obtain ⟨r, hr⟩ := exists_truncate (List.mem_of_getLast? hb0)
      have hlen : strlen b = some (truncate b).length := by
        conv_lhs => rw [hr]
        exact strlen_append (not_mem_truncate b)
      rw [hb]
      simp only [Option.bind_eq_bind, Option.bind_some, hlen]
      split
      · exact ⟨_, rfl, h.keep rfl fun _ => by rw [hs]; rfl⟩
      · split
        · exact ⟨_, rfl, h.keep rfl fun _ => by rw [hs]; rfl⟩
        · exact ⟨_, rfl, h.stop rfl (fun _ => by rw [hs]; rfl) (by rintro ⟨⟩)⟩
    · intro hf
      rcases hb : strncpy (List.replicate 128 0) s s.length with _ | b
      · rfl
      · -- the buffer is full, and `inet_pton` reads past its end
        have hlen := strlen_eq_none (strncpy_not_fits hd hf hb)
        simp only [Option.bind_eq_bind, Option.bind_some, hlen]
        rfl
  | _ =>
    exact ⟨fun _ => ⟨_, rfl, h.stop rfl (fun hin => by rw [hs]; exact hin) (by rintro ⟨⟩)⟩,
      fun hf => absurd trivial hf⟩

variable {inetPton : List Byte → Option (BitVec 32)} {inetPton6 : List Byte → Option (BitVec 128)}

/-- **One event**: if it fits the invariant is kept, otherwise a write is outside, or
    leaves no terminator. -/
theorem NamesTerminated.event (h : NamesTerminated (ctx, true)) (event : JsonEvent)
    (allocated : Bool) :
    (ctx.Fits event →
      ∃ s', subnetActivityEvent inetPton inetPton6 ctx (event, allocated) = some s' ∧
        NamesTerminated s') ∧
    (¬ ctx.Fits event →
      ∀ s', subnetActivityEvent inetPton inetPton6 ctx (event, allocated) = some s' →
        ¬ InsideBuffers s') := by
  have hfits : ∀ {event : JsonEvent}, (∀ s, event ≠ .string s) → (∀ s, event ≠ .mapKey s) →
      event ≠ .startMap → ctx.Fits event := by
    intro event hstring hkey hmap
    rw [SubnetSpecContext.Fits.eq_def]
    split
    · exact absurd rfl hmap
    · exact absurd rfl (hstring _)
    · exact absurd rfl (hkey _)
    · trivial
  cases event with
  | integer v =>
    exact ⟨fun _ => ⟨_, rfl, h.integer v allocated⟩, fun hf => (hf (hfits nofun nofun nofun)).elim⟩
  | string s => exact h.string s
  | startMap =>
    refine ⟨(h.startMap allocated).1, fun hf s' hs' => ?_⟩
    rw [subnetActivityEvent, (h.startMap allocated).2 hf] at hs'
    cases hs'
  | mapKey s =>
    refine ⟨(h.mapKey inetPton inetPton6 s).1, fun hf s' hs' => ?_⟩
    rw [subnetActivityEvent, (h.mapKey inetPton inetPton6 s).2 hf] at hs'
    cases hs'
  | endMap =>
    exact ⟨fun _ => ⟨_, rfl, h.endMap⟩, fun hf => (hf (hfits nofun nofun nofun)).elim⟩
  | startArray =>
    exact ⟨fun _ => ⟨_, rfl, h.startArray⟩, fun hf => (hf (hfits nofun nofun nofun)).elim⟩
  | endArray =>
    exact ⟨fun _ => ⟨_, rfl, h.endArray⟩, fun hf => (hf (hfits nofun nofun nofun)).elim⟩
  | _ => exact ⟨fun _ => ⟨_, rfl, h⟩, fun hf => (hf (hfits nofun nofun nofun)).elim⟩

end

/-! ## The run -/

/-- **All writes are inside of the buffers**, and what is rejected sets an error status,
    exactly if every event for which a callback is called fits. -/
theorem subnetCallbacks_inside_iff (inetPton : List Byte → Option (BitVec 32))
    (inetPton6 : List Byte → Option (BitVec 128)) (events : List (JsonEvent × Bool)) :
    (∀ pre, pre <+: events → ∃ s,
      pre.foldlM (subnetActivityStep inetPton inetPton6) (subnetSpecInit, true) = some s ∧
        InsideBuffers s) ↔
      ∀ pre e, pre ++ [e] <+: events → ∀ s,
        pre.foldlM (subnetActivityStep inetPton inetPton6) (subnetSpecInit, true) = some s →
          s.2 = true → s.1.Fits e.1 := by
  refine Run.safe_iff (I := NamesTerminated) (fun s h => h.insideBuffers) ?_ ?_ ?_
  · rintro ⟨ctx, _ | _⟩ ⟨event, allocated⟩ h hf
    · exact ⟨_, rfl, h⟩
    · exact (h.event event allocated).1 (hf rfl)
  · rintro ⟨ctx, _ | _⟩ ⟨event, allocated⟩ s' h hf hs'
    · exact absurd nofun hf
    · exact (h.event event allocated).2 (fun hfit => hf fun _ => hfit) s' hs'
  · exact ⟨Nat.zero_le _, nofun, nofun, nofun⟩

/-- A definition with the name of an entity, up to this name. -/
def entityEvents (name : List Byte) : List (JsonEvent × Bool) :=
  [(.startMap, true), (.mapKey (ascii "subnet_activity"), true), (.startArray, true),
    (.startMap, true), (.mapKey (ascii "entity"), true), (.string name, true)]

/-- A name of 200 bytes is written outside of its buffer. -/
theorem subnetCallbacks_overrun : ¬ ∀ pre, pre <+: entityEvents (List.replicate 200 0x61) → ∃ s,
    pre.foldlM (subnetActivityStep (fun _ => none) fun _ => none) (subnetSpecInit, true) = some s ∧
      InsideBuffers s := by
  intro h
  obtain ⟨s, hs, -⟩ := h _ List.prefix_rfl
  have hnone : ((entityEvents (List.replicate 200 0x61)).foldlM
      (subnetActivityStep (fun _ => none) fun _ => none) (subnetSpecInit, true)).isNone := by
    decide +kernel
  rw [hs] at hnone
  cases hnone

end Honas

/-
  The strings that a lookup stores (`src/honas_state.c`,
  `honas_state_register_host_name_lookup`).

  The function builds, in three scratch buffers, the strings whose hashes it
  registers.  What it does with a hash does not influence which strings
  follow, so they are computed first, as a list in the order of the code.
  `hostNameStrings` returns `none` when a buffer would be overrun.

  `hostNameStrings_spec`: with at most 255 bytes of host name and an entity
  name below 128 bytes no buffer is overrun, and the strings are determined by
  the labels of the name.  `hostNameStrings_documented_iff` compares them with
  the strings of the README.
-/
import Honas.Lib.CString

namespace Honas

open Bits CString

/-- `'.'` and `'@'`. -/
def dot : Byte := 0x2e#8
def atSign : Byte := 0x40#8

/-- `LDNS_RR_TYPE_PTR`. -/
def ldnsRrTypePtr : ℕ := 12

/-- `tolower`, in the C locale. -/
def tolower (c : Byte) : Byte := if 0x41#8 ≤ c ∧ c ≤ 0x5a#8 then c + 0x20#8 else c

/-- `sizeof(local_host_name)`, `sizeof(localbuf)` and `sizeof(sld_buf)`. -/
def sizeofLocalHostName : ℕ := 256
def sizeofLocalbuf : ℕ := 512
def sizeofSldBuf : ℕ := 256

/-- A string that is hashed and registered.  The first one, the domain name as
    a whole, is counted by another hash in a dry run. -/
structure StoredName where
  name : List Byte
  whole : Bool
deriving DecidableEq

/-- The host name without a possible trailing `.`, in lower case. -/
def canonicalHostName (hostName : List Byte) : Option (List Byte) := do
  let last ← hostName.getLast?
  let hostName := if last = dot then hostName.dropLast else hostName
  if hostName.length ≤ sizeofLocalHostName then some (hostName.map tolower) else none

/-- The entity name, an `@` and at most `limit` bytes of `src`, where the limit
    may depend on the length of what is in `localbuf`. -/
def entityString (entity src : List Byte) (limit : ℕ → ℕ) : Option (List Byte) := do
  -- `localbuf` is not initialised; `strncpy` writes all of it
  let localbuf ← strncpy (List.replicate sizeofLocalbuf 0) (entity ++ [0]) sizeofLocalbuf
  let localbuf ← store localbuf (← strlen localbuf) atSign
  let localbuf ← strncat localbuf src (limit (← strlen localbuf))
  some (localbuf.take (← strlen localbuf))

/-- The loop over the labels, where `part` is the bytes from `part_start` to
    `part_end`: the strings, and the last contents of `sld_buf`. -/
def hostNameParts (entity : Option (List Byte)) (part sldBuf : List Byte) :
    Option (List StoredName × List Byte) :=
  let n := part.idxOf dot
  if _h : n < part.length then do
    let prefixed ←
      match entity with
      | some entity => do
        let name ← entityString entity part fun _ => n
        some [⟨name, false⟩]
      | none => some []
    let sldBuf ← strncpy sldBuf part part.length
    let sldBuf ← store sldBuf part.length 0
    let (names, sldBuf) ← hostNameParts entity (part.drop (n + 1)) sldBuf
    some (prefixed ++ ⟨part.take n, false⟩ :: names, sldBuf)
  else some ([], sldBuf)
termination_by part.length
decreasing_by simp only [List.length_drop]; omega

/-- The strings of one lookup, in the order in which they are registered. -/
def hostNameStrings (hostName : List Byte) (entity : Option (List Byte)) (qtype : ℕ) :
    Option (List StoredName) := do
  let host ← canonicalHostName hostName
  let prefixed ←
    match entity with
    | some entity => do
      let name ← entityString entity (pad sizeofLocalHostName host) fun len => sizeofLocalbuf - len - 1
      some [⟨name, false⟩]
    | none => some []
  let parts ←
    if qtype ≠ ldnsRrTypePtr then do
      let (names, sldBuf) ← hostNameParts entity host (List.replicate sizeofSldBuf 0)
      some (names ++ [⟨sldBuf.take (← strlen sldBuf), false⟩])
    else some []
  some (⟨host, true⟩ :: prefixed ++ parts)

/-- The host name is among the strings. -/
theorem hostNameStrings_ne_nil {hostName : List Byte} {entity : Option (List Byte)} {qtype : ℕ}
    {names : List StoredName} (h : hostNameStrings hostName entity qtype = some names) :
    names ≠ [] := by
  rintro rfl
  cases entity <;> by_cases hq : qtype ≠ ldnsRrTypePtr <;>
    simp [hostNameStrings, hq, Option.bind_eq_some_iff] at h

/-! ## Names and labels -/

/-- An entity name: a C string in a buffer of 128 bytes. -/
structure EntityName where
  bytes : List Byte
  not_mem : 0 ∉ bytes
  length_lt : bytes.length < 128

/-- Labels joined by dots. -/
def dotted : List (List Byte) → List Byte
  | [] => []
  | [label] => label
  | label :: labels => label ++ dot :: dotted labels

theorem dotted_cons {l : List Byte} {labels : List (List Byte)} (h : labels ≠ []) :
    dotted (l :: labels) = l ++ dot :: dotted labels := by
  cases labels with
  | nil => exact absurd rfl h
  | cons => rfl

/-- Every byte string is a sequence of labels. -/
theorem exists_labels : ∀ part : List Byte,
    ∃ labels, labels ≠ [] ∧ (∀ l ∈ labels, dot ∉ l) ∧ dotted labels = part
  | [] => ⟨[[]], by simp, by simp, rfl⟩
  | c :: part => by
    obtain ⟨labels, hne, hdot, rfl⟩ := exists_labels part
    by_cases hc : c = dot
    · refine ⟨[] :: labels, by simp, ?_, by rw [dotted_cons hne, hc]; rfl⟩
      rw [List.forall_mem_cons]
      exact ⟨by simp, hdot⟩
    · obtain ⟨l, ls, rfl⟩ := List.exists_cons_of_ne_nil hne
      rw [List.forall_mem_cons] at hdot
      refine ⟨(c :: l) :: ls, by simp, ?_, by cases ls <;> rfl⟩
      rw [List.forall_mem_cons]
      refine ⟨?_, hdot.2⟩
      rw [List.mem_cons, not_or]
      exact ⟨Ne.symm hc, hdot.1⟩

/-- What one label adds to the strings. -/
def labelStrings (entity : Option EntityName) (label : List Byte) : List StoredName :=
  (match entity with
    | some e => [⟨e.bytes ++ atSign :: truncate label, false⟩]
    | none => []) ++ [⟨label, false⟩]

/-- The last two labels with the dot between them; empty for a single label. -/
def lastTwo : List (List Byte) → List Byte
  | [] | [_] => []
  | [sld, tld] => sld ++ dot :: tld
  | _ :: labels => lastTwo labels

/-! ## The buffers -/

theorem atSign_ne_zero : (0 : Byte) ≠ atSign := by decide

/-- The entity name and the `@` are in `localbuf` when the rest is appended. -/
theorem entityString_cat (e : EntityName) (src : List Byte) (limit : ℕ → ℕ) :
    entityString e.bytes src limit =
      (strncat (pad sizeofLocalbuf (e.bytes ++ [atSign])) src (limit (e.bytes.length + 1))).bind
        fun localbuf => (strlen localbuf).map localbuf.take := by
  have he := e.length_lt
  have hread : strnread sizeofLocalbuf (e.bytes ++ [0]) = some e.bytes :=
    strnread_terminated e.not_mem (by unfold sizeofLocalbuf; omega)
  have hcopy := strncpy_pad (List.length_replicate (n := sizeofLocalbuf) (a := (0 : Byte))) hread
  have hlen := strlen_pad sizeofLocalbuf e.not_mem (by unfold sizeofLocalbuf; omega)
  have hstore := store_pad sizeofLocalbuf (s := e.bytes) (by unfold sizeofLocalbuf; omega) atSign
  have h0' : 0 ∉ e.bytes ++ [atSign] := by
    rw [List.mem_append, not_or, List.mem_singleton]; exact ⟨e.not_mem, atSign_ne_zero⟩
  have hlen' := strlen_pad sizeofLocalbuf h0' (by
    rw [List.length_append, List.length_singleton]; unfold sizeofLocalbuf; omega)
  rw [List.length_append, List.length_singleton] at hlen'
  rw [entityString, hcopy]
  simp only [Option.bind_eq_bind, Option.bind_some, hlen, hstore, hlen']
  cases strncat (pad sizeofLocalbuf (e.bytes ++ [atSign])) src (limit (e.bytes.length + 1)) with
  | none => rfl
  | some localbuf => cases h : strlen localbuf <;> simp [h]

/-- The string with the entity name, as far as `localbuf` has room. -/
theorem entityString_eq (e : EntityName) (src : List Byte) {s : List Byte} (limit : ℕ → ℕ)
    (hs : strnread (limit (e.bytes.length + 1)) src = some s) (h0 : 0 ∉ s) (hl : s.length < 256) :
    entityString e.bytes src limit = some (e.bytes ++ atSign :: s) := by
  have he := e.length_lt
  have h0' : 0 ∉ e.bytes ++ [atSign] := by
    rw [List.mem_append, not_or, List.mem_singleton]; exact ⟨e.not_mem, atSign_ne_zero⟩
  have hcat := strncat_pad sizeofLocalbuf h0' hs (by
    rw [List.length_append, List.length_singleton]; unfold sizeofLocalbuf; omega)
  have h0'' : 0 ∉ e.bytes ++ [atSign] ++ s := by
    rw [List.mem_append, not_or]; exact ⟨h0', h0⟩
  have hlen'' := strlen_pad sizeofLocalbuf h0'' (by
    rw [List.length_append, List.length_append, List.length_singleton]; unfold sizeofLocalbuf; omega)
  rw [entityString_cat, hcat]
  simp only [Option.bind_some, hlen'', Option.map_some]
  rw [pad, List.take_left, List.append_assoc]
  rfl

theorem idxOf_dot {label : List Byte} (h : dot ∉ label) (rest : List Byte) :
    (label ++ dot :: rest).idxOf dot = label.length := by
  rw [List.idxOf_append_of_notMem h, List.idxOf_cons_self, Nat.add_zero]

/-- One iteration of the loop: the strings of a label, and `sld_buf` holds the
    name from that label on. -/
theorem hostNameParts_step (entity : Option EntityName) {label rest buf : List Byte}
    (hd : dot ∉ label) (hl : (label ++ dot :: rest).length ≤ 255) (hb : buf.length = sizeofSldBuf) :
    ∃ r, (truncate (label ++ dot :: rest) ++ 0 :: r).length = sizeofSldBuf ∧
      ∀ names buf', hostNameParts (entity.map EntityName.bytes) rest
          (truncate (label ++ dot :: rest) ++ 0 :: r) = some (names, buf') →
        hostNameParts (entity.map EntityName.bytes) (label ++ dot :: rest) buf =
          some (labelStrings entity label ++ names, buf') := by
  obtain ⟨b, r, hcopy, hstore, hlen⟩ := strncpy_store buf (label ++ dot :: rest)
    (by rw [hb]; unfold sizeofSldBuf; omega)
  rw [List.length_append, List.length_cons] at hl
  refine ⟨r, hlen.trans hb, fun names buf' hrec => ?_⟩
  rw [hostNameParts]
  simp only [idxOf_dot hd]
  rw [dif_pos (by rw [List.length_append, List.length_cons]; omega)]
  have hdrop : (label ++ dot :: rest).drop (label.length + 1) = rest := by
    rw [← List.drop_drop, List.drop_left]; rfl
  rw [hdrop, List.take_left]
  cases entity with
  | none =>
    simp only [Option.map_none, Option.bind_eq_bind, Option.bind_some, hcopy, hstore] at hrec ⊢
    rw [hrec]; rfl
  | some e =>
    have hread := strnread_length label (dot :: rest)
    have hent := entityString_eq e _ (fun _ => label.length) hread (not_mem_truncate label)
      (by have := length_truncate_le label; omega)
    simp only [Option.map_some, Option.bind_eq_bind, Option.bind_some, hent, hcopy, hstore]
      at hrec ⊢
    rw [hrec]; rfl

/-- **The loop**: every label but the last adds its strings, and `sld_buf` ends
    up with the last two labels. -/
theorem hostNameParts_spec (entity : Option EntityName) : ∀ (labels : List (List Byte))
    (buf prev r : List Byte), labels ≠ [] → (∀ l ∈ labels, dot ∉ l) → (dotted labels).length ≤ 255 →
    buf = prev ++ 0 :: r → buf.length = sizeofSldBuf →
    ∃ r', hostNameParts (entity.map EntityName.bytes) (dotted labels) buf =
      some (labels.dropLast.flatMap (labelStrings entity),
        (if labels.length = 1 then prev else truncate (lastTwo labels)) ++ 0 :: r')
  | [label], buf, prev, r, _, hd, _, hb, _ => by
    refine ⟨r, ?_⟩
    have hno : ¬ label.idxOf dot < label.length := by
      rw [List.idxOf_lt_length_iff]; exact hd label (by simp)
    rw [dotted, hostNameParts]
    simp only [dif_neg hno, hb]
    rfl
  | label :: label' :: labels, buf, prev, r, _, hd, hl, _, hlen => by
    rw [List.forall_mem_cons] at hd
    rw [dotted_cons (by simp)] at hl ⊢
    obtain ⟨r₁, hr₁, hstep⟩ := hostNameParts_step entity hd.1 hl hlen
    rw [List.length_append, List.length_cons] at hl
    obtain ⟨r', hrec⟩ := hostNameParts_spec entity (label' :: labels) _ _ _ (by simp) hd.2
      (by omega) rfl hr₁
    refine ⟨r', ?_⟩
    rw [hstep _ _ hrec]
    cases labels with
    | nil => simp [lastTwo, dotted]
    | cons l ls => simp [lastTwo]

/-- **The strings of a lookup**, by the labels of its host name. -/
theorem hostNameStrings_spec {hostName host : List Byte} (entity : Option EntityName) (qtype : ℕ)
    {labels : List (List Byte)} (hc : canonicalHostName hostName = some host)
    (hl : host.length ≤ 255) (hne : labels ≠ []) (hd : ∀ l ∈ labels, dot ∉ l)
    (hh : dotted labels = host) :
    hostNameStrings hostName (entity.map EntityName.bytes) qtype =
      some (⟨host, true⟩ :: (match entity with
        | some e => [⟨e.bytes ++ atSign :: truncate host, false⟩]
        | none => []) ++
      if qtype ≠ ldnsRrTypePtr then
        labels.dropLast.flatMap (labelStrings entity) ++ [⟨truncate (lastTwo labels), false⟩]
      else []) := by
  have hparts : ∃ buf, hostNameParts (entity.map EntityName.bytes) host
      (List.replicate sizeofSldBuf 0) =
        some (labels.dropLast.flatMap (labelStrings entity), buf) ∧
      (strlen buf).map (fun n => buf.take n) = some (truncate (lastTwo labels)) := by
    obtain ⟨r', hp⟩ := hostNameParts_spec entity labels (List.replicate sizeofSldBuf 0)
      [] (List.replicate 255 0) hne hd (by rw [hh]; exact hl) rfl (by simp)
    rw [hh] at hp
    refine ⟨_, hp, ?_⟩
    have hsld : (if labels.length = 1 then [] else truncate (lastTwo labels)) =
        truncate (lastTwo labels) := by
      split_ifs with h1
      · obtain ⟨l, rfl⟩ := List.length_eq_one_iff.1 h1
        rfl
      · rfl
    rw [hsld, strlen_append (not_mem_truncate _), Option.map_some, List.take_left]
  obtain ⟨buf, hp, hs⟩ := hparts
  obtain ⟨n, hn, htake⟩ := Option.map_eq_some_iff.1 hs
  rw [hostNameStrings, hc]
  cases entity with
  | none =>
    simp only [Option.map_none, Option.bind_eq_bind, Option.bind_some] at hp ⊢
    split_ifs
    · simp only [hp, hn, htake, Option.bind_some]
    · rfl
  | some e =>
    have he := e.length_lt
    have hent := entityString_eq e (pad sizeofLocalHostName host)
      (fun len => sizeofLocalbuf - len - 1)
      (strnread_pad (by unfold sizeofLocalHostName; omega) (by unfold sizeofLocalbuf; omega))
      (not_mem_truncate host) (by have := length_truncate_le host; omega)
    simp only [Option.map_some, Option.bind_eq_bind, Option.bind_some, hent] at hp ⊢
    split_ifs
    · simp only [hp, hn, htake, Option.bind_some]
    · rfl

theorem canonicalHostName_spec {hostName : List Byte} (h0 : hostName ≠ [])
    (hl : hostName.length ≤ 255) :
    ∃ host, canonicalHostName hostName = some host ∧ host.length ≤ 255 := by
  rw [canonicalHostName, List.getLast?_eq_some_getLast h0]
  simp only [Option.bind_eq_bind, Option.bind_some]
  have hle : (if hostName.getLast h0 = dot then hostName.dropLast else hostName).length ≤ 255 := by
    split_ifs
    · rw [List.length_dropLast]; omega
    · exact hl
  rw [if_pos (by unfold sizeofLocalHostName; omega)]
  exact ⟨_, rfl, by rw [List.length_map]; exact hle⟩

/-- **No buffer is overrun**: every host name of 1 to 255 bytes has its list of
    strings. -/
theorem hostNameStrings_isSome {hostName : List Byte} (entity : Option EntityName) (qtype : ℕ)
    (h0 : hostName ≠ []) (hl : hostName.length ≤ 255) :
    ∃ names, hostNameStrings hostName (entity.map EntityName.bytes) qtype = some names := by
  obtain ⟨host, hc, hle⟩ := canonicalHostName_spec h0 hl
  obtain ⟨labels, hne, hd, hh⟩ := exists_labels host
  exact ⟨_, hostNameStrings_spec entity qtype hc hle hne hd hh⟩

/-! ## Equal names -/

/-- A name in lower case, without one trailing dot. -/
def canonicalForm (name : List Byte) : List Byte :=
  if (name.map tolower).getLast? = some dot then (name.map tolower).dropLast
  else name.map tolower

theorem tolower_eq_dot_iff {c : Byte} : tolower c = dot ↔ c = dot := by
  constructor
  · intro h
    unfold tolower at h
    split_ifs at h with hc
    · obtain ⟨h1, h2⟩ := hc
      have h3 : (c + 0x20#8).toNat = 0x2e := congrArg BitVec.toNat h
      have h4 : 0x41 ≤ c.toNat := h1
      have h5 : c.toNat ≤ 0x5a := h2
      rw [BitVec.toNat_add, show (0x20#8).toNat = 32 by rfl] at h3
      omega
    · exact h
  · rintro rfl
    rfl

/-- The scratch buffer holds the canonical form. -/
theorem canonicalHostName_eq {hostName : List Byte} (h0 : hostName ≠ [])
    (hl : hostName.length ≤ 255) :
    canonicalHostName hostName = some (canonicalForm hostName) := by
  have hlast : (hostName.map tolower).getLast? = some dot ↔ hostName.getLast h0 = dot := by
    rw [List.getLast?_map, List.getLast?_eq_some_getLast h0, Option.map_some, Option.some_inj]
    exact tolower_eq_dot_iff
  obtain ⟨host, hc, -⟩ := canonicalHostName_spec h0 hl
  rw [hc]
  rw [canonicalHostName, List.getLast?_eq_some_getLast h0] at hc
  simp only [Option.bind_eq_bind, Option.bind_some] at hc
  split_ifs at hc with hdot hle hle
  · rw [canonicalForm, if_pos (hlast.2 hdot), List.dropLast_eq_take, List.length_map,
      ← List.map_take, ← List.dropLast_eq_take]
    exact hc.symm
  · rw [canonicalForm, if_neg (mt hlast.1 hdot)]
    exact hc.symm

/-- **Only the canonical form counts**: names with the same one have the same
    strings. -/
theorem hostNameStrings_congr {a b : List Byte} (ha : a ≠ []) (hb : b ≠ []) (hla : a.length ≤ 255)
    (hlb : b.length ≤ 255) (h : canonicalForm a = canonicalForm b) (entity : Option (List Byte))
    (qtype : ℕ) : hostNameStrings a entity qtype = hostNameStrings b entity qtype := by
  rw [hostNameStrings, hostNameStrings, canonicalHostName_eq ha hla, canonicalHostName_eq hb hlb, h]

/-! ## Names that fit -/

theorem tolower_ne_zero {c : Byte} (h : c ≠ 0) : tolower c ≠ 0 := by
  unfold tolower
  split_ifs with hc
  · obtain ⟨h1, h2⟩ := hc
    intro h0
    have h3 : (c + 0x20#8).toNat = 0 := congrArg BitVec.toNat h0
    have h4 : c.toNat ≤ 0x5a := h2
    rw [BitVec.toNat_add, show (0x20#8).toNat = 32 by rfl] at h3
    omega
  · exact h

/-- Without a terminator, `strncat` reads past the end. -/
theorem strnread_eq_none : ∀ {n : ℕ} {src : List Byte}, 0 ∉ src → src.length < n →
    strnread n src = none
  | n + 1, [], _, _ => rfl
  | n + 1, c :: src, h0, hl => by
    rw [List.mem_cons, not_or] at h0
    rw [strnread, if_neg (Ne.symm h0.1), strnread_eq_none h0.2 (by
      rw [List.length_cons] at hl; omega)]
    rfl

/-- **Which names fit** in the buffers, for a C string with an entity. -/
theorem hostNameStrings_isSome_iff {hostName : List Byte} (e : EntityName) (qtype : ℕ)
    (h0 : hostName ≠ []) (hz : 0 ∉ hostName) :
    (∃ names, hostNameStrings hostName (some e.bytes) qtype = some names) ↔
      (if hostName.getLast h0 = dot then hostName.dropLast else hostName).length ≤ 255 := by
  set stripped := if hostName.getLast h0 = dot then hostName.dropLast else hostName with hstripped
  have hsub : ∀ c ∈ stripped, c ∈ hostName := by
    intro c hc
    rw [hstripped] at hc
    split_ifs at hc
    exacts [List.mem_of_mem_dropLast hc, hc]
  have hcanonical : canonicalHostName hostName =
      if stripped.length ≤ sizeofLocalHostName then some (stripped.map tolower) else none := by
    rw [canonicalHostName, List.getLast?_eq_some_getLast h0]
    rfl
  have hlen : (stripped.map tolower).length = stripped.length := List.length_map _
  constructor
  · rintro ⟨names, hn⟩
    by_contra hlong
    rw [hostNameStrings, hcanonical] at hn
    by_cases hl : stripped.length ≤ sizeofLocalHostName
    · -- `local_host_name` is full and has no terminator
      have hfull : stripped.length = sizeofLocalHostName := by
        unfold sizeofLocalHostName at hl ⊢; omega
      have hz' : 0 ∉ stripped.map tolower := by
        intro hmem
        obtain ⟨c, hc, htl⟩ := List.mem_map.1 hmem
        exact tolower_ne_zero (fun h => hz (h ▸ hsub c hc)) htl
      have hpad : pad sizeofLocalHostName (stripped.map tolower) = stripped.map tolower := by
        rw [pad, hlen, hfull, Nat.sub_self, List.replicate_zero, List.append_nil]
      have hnone : entityString e.bytes (pad sizeofLocalHostName (stripped.map tolower))
          (fun len => sizeofLocalbuf - len - 1) = none := by
        have he := e.length_lt
        have h0' : 0 ∉ e.bytes ++ [atSign] := by
          rw [List.mem_append, not_or, List.mem_singleton]; exact ⟨e.not_mem, atSign_ne_zero⟩
        rw [entityString_cat, hpad, strncat, strlen_pad sizeofLocalbuf h0' (by
          rw [List.length_append, List.length_singleton]; unfold sizeofLocalbuf; omega),
          strnread_eq_none hz' (by
            rw [hlen, hfull]; unfold sizeofLocalbuf sizeofLocalHostName; omega)]
        rfl
      rw [if_pos hl] at hn
      simp only [Option.bind_eq_bind, Option.bind_some, hnone] at hn
      cases hn
    · rw [if_neg hl] at hn
      cases hn
  · intro hle
    have hl : stripped.length ≤ sizeofLocalHostName := by unfold sizeofLocalHostName; omega
    rw [if_pos hl] at hcanonical
    obtain ⟨labels, hne, hd, hh⟩ := exists_labels (stripped.map tolower)
    exact ⟨_, hostNameStrings_spec (some e) qtype hcanonical (by rw [hlen]; exact hle) hne hd hh⟩

/-! ## The documented strings -/

/-- A canonical host name: non-empty labels in lower case, without a trailing
    dot. -/
structure CanonicalName where
  labels : List (List Byte)
  labels_ne : labels ≠ []
  label_ne : ∀ l ∈ labels, l ≠ []
  dot_notMem : ∀ l ∈ labels, dot ∉ l
  lower : ∀ l ∈ labels, ∀ c ∈ l, tolower c = c
  length_le : (dotted labels).length ≤ 255

/-- An entity name before a string, as the README writes it. -/
def EntityName.prefixed (e : EntityName) (s : List Byte) : List Byte := e.bytes ++ atSign :: s

/-- The strings that the README documents for a name, without an entity: the
    name, and its last two labels and all labels but the last. -/
def CanonicalName.parts (h : CanonicalName) (qtype : ℕ) : Set (List Byte) :=
  if qtype = ldnsRrTypePtr ∨ h.labels.length = 1 then {dotted h.labels}
  else {s | s = dotted h.labels ∨ s = lastTwo h.labels ∨ s ∈ h.labels.dropLast}

/-- The strings that the README documents for a name and an entity. -/
def CanonicalName.documented (h : CanonicalName) (e : EntityName) (qtype : ℕ) : Set (List Byte) :=
  h.parts qtype ∪ Set.image e.prefixed (h.parts qtype)

theorem EntityName.prefixed_injective (e : EntityName) : Function.Injective e.prefixed := by
  intro s t h
  have htail := List.append_cancel_left h
  exact (List.cons.inj htail).2

theorem EntityName.length_prefixed (e : EntityName) (s : List Byte) :
    (e.prefixed s).length = e.bytes.length + s.length + 1 := by
  simp [EntityName.prefixed]; omega

theorem mem_dotted {l : List Byte} {c : Byte} (hc : c ∈ l) :
    ∀ {labels : List (List Byte)}, l ∈ labels → c ∈ dotted labels
  | [l'], hl => by
    rw [List.mem_singleton] at hl
    rwa [dotted, ← hl]
  | l₁ :: l₂ :: labels, hl => by
    rw [dotted_cons (by simp), List.mem_append, List.mem_cons]
    rcases List.mem_cons.1 hl with rfl | hl
    · exact .inl hc
    · exact .inr (.inr (mem_dotted hc hl))

theorem length_le_dotted {l : List Byte} :
    ∀ {labels : List (List Byte)}, l ∈ labels → l.length ≤ (dotted labels).length
  | [l'], hl => by rw [List.mem_singleton.1 hl, dotted]
  | l₁ :: l₂ :: labels, hl => by
    rw [dotted_cons (by simp), List.length_append, List.length_cons]
    rcases List.mem_cons.1 hl with rfl | hl
    · omega
    · have := length_le_dotted hl
      omega

/-- All labels but the last are shorter than the name. -/
theorem length_lt_dotted {l : List Byte} :
    ∀ {labels : List (List Byte)}, l ∈ labels.dropLast → l.length < (dotted labels).length
  | l₁ :: l₂ :: labels, hl => by
    rw [dotted_cons (by simp), List.length_append, List.length_cons]
    rw [List.dropLast_cons_of_ne_nil (by simp), List.mem_cons] at hl
    rcases hl with rfl | hl
    · omega
    · have := length_lt_dotted hl
      omega

theorem length_lastTwo_le : ∀ labels : List (List Byte),
    (lastTwo labels).length ≤ (dotted labels).length
  | [] | [_] => Nat.zero_le _
  | [_, _] => le_rfl
  | l₁ :: l₂ :: l₃ :: labels => by
    have hle := length_lastTwo_le (l₂ :: l₃ :: labels)
    have htail : lastTwo (l₁ :: l₂ :: l₃ :: labels) = lastTwo (l₂ :: l₃ :: labels) := rfl
    rw [htail, dotted_cons (by simp), List.length_append, List.length_cons]
    omega

/-- A name of two labels is its last two labels. -/
theorem lastTwo_eq_dotted {labels : List (List Byte)} (h : labels.length = 2) :
    lastTwo labels = dotted labels := by
  obtain ⟨sld, tld, rfl⟩ := List.length_eq_two.1 h
  rfl

/-- With more labels, the last two are behind a dot. -/
theorem exists_dotted_eq_lastTwo : ∀ {labels : List (List Byte)}, 2 < labels.length →
    ∃ pre, dotted labels = pre ++ dot :: lastTwo labels ∧ dot ∈ lastTwo labels
  | [l, sld, tld], _ => ⟨l, by simp [dotted, lastTwo], by simp [lastTwo]⟩
  | l₁ :: l₂ :: l₃ :: l₄ :: labels, _ => by
    obtain ⟨pre, he, hd⟩ := exists_dotted_eq_lastTwo
      (show 2 < (l₂ :: l₃ :: l₄ :: labels).length by simp)
    refine ⟨l₁ ++ dot :: pre, ?_, hd⟩
    rw [dotted_cons (by simp), he, List.append_assoc, List.cons_append]
    rfl

/-- Labels in lower case make a name in lower case. -/
theorem tolower_dotted {labels : List (List Byte)} (hl : ∀ l ∈ labels, ∀ c ∈ l, tolower c = c) :
    ∀ c ∈ dotted labels, tolower c = c := by
  induction labels with
  | nil => intro c hc; cases hc
  | cons l labels ih =>
    rw [List.forall_mem_cons] at hl
    by_cases hne : labels = []
    · subst hne
      exact hl.1
    · intro c hc
      rw [dotted_cons hne, List.mem_append, List.mem_cons] at hc
      rcases hc with hc | rfl | hc
      · exact hl.1 c hc
      · rfl
      · exact ih hl.2 c hc

/-- The last byte of a name is the one of its last label. -/
theorem getLast?_dotted {labels : List (List Byte)} (hne : labels ≠ [])
    (hl : ∀ l ∈ labels, l ≠ []) : ∃ l ∈ labels, (dotted labels).getLast? = l.getLast? := by
  induction labels with
  | nil => exact absurd rfl hne
  | cons l labels ih =>
    rw [List.forall_mem_cons] at hl
    by_cases hrest : labels = []
    · subst hrest
      exact ⟨l, by simp, rfl⟩
    · obtain ⟨l', hmem, hlast⟩ := ih hrest hl.2
      refine ⟨l', List.mem_cons_of_mem _ hmem, ?_⟩
      obtain ⟨c, hc⟩ := Option.isSome_iff_exists.1 (List.getLast?_isSome.2 (hl.2 l' hmem))
      rw [dotted_cons hrest, List.getLast?_append_of_ne_nil _ (by simp), List.getLast?_cons, hlast,
        hc, Option.getD_some]

namespace CanonicalName

variable (h : CanonicalName)

theorem dotted_ne : dotted h.labels ≠ [] := by
  obtain ⟨l, labels, hl⟩ := List.exists_cons_of_ne_nil h.labels_ne
  have hmem : l ∈ h.labels := by rw [hl]; exact List.mem_cons_self ..
  have hle := length_le_dotted hmem
  have hne := List.length_pos_iff.2 (h.label_ne l hmem)
  intro h0
  rw [h0, List.length_nil] at hle
  omega

/-- Nothing is left to canonicalise. -/
theorem canonicalHostName_eq : canonicalHostName (dotted h.labels) = some (dotted h.labels) := by
  have hne := h.dotted_ne
  obtain ⟨l, hmem, hlast⟩ := getLast?_dotted h.labels_ne h.label_ne
  rw [List.getLast?_eq_some_getLast hne] at hlast
  have hdot : (dotted h.labels).getLast hne ≠ dot := by
    intro hd
    rw [hd] at hlast
    exact h.dot_notMem l hmem (List.mem_of_getLast? hlast.symm)
  rw [canonicalHostName, List.getLast?_eq_some_getLast hne]
  simp only [Option.bind_eq_bind, Option.bind_some]
  rw [if_neg hdot, if_pos (h.length_le.trans (by decide)),
    List.map_congr_left (tolower_dotted h.lower), List.map_id']

/-- The strings of the code. -/
theorem exists_strings (e : EntityName) (qtype : ℕ) :
    ∃ strings, hostNameStrings (dotted h.labels) (some e.bytes) qtype = some strings ∧
      ∀ s, (∃ stored ∈ strings, stored.name = s) ↔
        s = dotted h.labels ∨ s = e.prefixed (truncate (dotted h.labels)) ∨
        qtype ≠ ldnsRrTypePtr ∧ ((∃ l ∈ h.labels.dropLast, s = e.prefixed (truncate l) ∨ s = l) ∨
          s = truncate (lastTwo h.labels)) := by
  refine ⟨_, hostNameStrings_spec (some e) qtype h.canonicalHostName_eq h.length_le h.labels_ne
    h.dot_notMem rfl, fun s => ?_⟩
  by_cases hq : qtype = ldnsRrTypePtr
  · simp [hq, eq_comm, EntityName.prefixed]
  · simp only [labelStrings, ne_eq, hq, not_false_eq_true, if_true, true_and, List.mem_append,
      List.mem_cons, List.mem_flatMap, List.not_mem_nil, or_false, EntityName.prefixed]
    constructor
    · rintro ⟨stored, (rfl | rfl) | ⟨l, hl, rfl | rfl⟩ | rfl, rfl⟩
      · exact .inl rfl
      · exact .inr (.inl rfl)
      · exact .inr (.inr (.inl ⟨l, hl, .inl rfl⟩))
      · exact .inr (.inr (.inl ⟨l, hl, .inr rfl⟩))
      · exact .inr (.inr (.inr rfl))
    · rintro (rfl | rfl | ⟨l, hl, rfl | rfl⟩ | rfl)
      · exact ⟨_, .inl (.inl rfl), rfl⟩
      · exact ⟨_, .inl (.inr rfl), rfl⟩
      · exact ⟨_, .inr (.inl ⟨l, hl, .inl rfl⟩), rfl⟩
      · exact ⟨⟨s, false⟩, .inr (.inl ⟨s, hl, .inr rfl⟩), rfl⟩
      · exact ⟨_, .inr (.inr rfl), rfl⟩

/-- With three labels or more, no string of the code is the entity before the
    last two labels. -/
theorem prefixed_lastTwo_notMem (e : EntityName) (h2 : 2 < h.labels.length) {s : List Byte}
    (hs : s = dotted h.labels ∨ s = e.prefixed (dotted h.labels) ∨
      (∃ l ∈ h.labels.dropLast, s = e.prefixed (truncate l) ∨ s = l) ∨
      s = truncate (lastTwo h.labels)) : s ≠ e.prefixed (lastTwo h.labels) := by
  obtain ⟨pre, hpre, hdot⟩ := exists_dotted_eq_lastTwo h2
  have hlen := congrArg List.length hpre
  rw [List.length_append, List.length_cons] at hlen
  rintro rfl
  rcases hs with hs | hs | ⟨l, hl, hs | hs⟩ | hs
  · -- the byte before the last two labels is a dot, not an at sign
    rw [hpre, EntityName.prefixed] at hs
    obtain ⟨-, htail⟩ := List.append_inj' hs rfl
    exact absurd (List.cons.inj htail).1 (by decide)
  · rw [e.prefixed_injective hs] at hlen
    omega
  · have hlt := e.prefixed_injective hs
    rw [hlt] at hdot
    exact h.dot_notMem l (List.mem_of_mem_dropLast hl) (List.takeWhile_subset _ hdot)
  · refine h.dot_notMem l (List.mem_of_mem_dropLast hl) ?_
    rw [← hs, EntityName.prefixed, List.mem_append, List.mem_cons]
    exact .inr (.inr hdot)
  · have hle := congrArg List.length hs
    rw [e.length_prefixed] at hle
    have := length_truncate_le (lastTwo h.labels)
    omega

/-- The code stores the entity before the whole name only up to a terminator. -/
theorem truncate_eq_of_prefixed_mem (e : EntityName)
    (hs : e.prefixed (dotted h.labels) = dotted h.labels ∨
      e.prefixed (dotted h.labels) = e.prefixed (truncate (dotted h.labels)) ∨
      (∃ l ∈ h.labels.dropLast, e.prefixed (dotted h.labels) = e.prefixed (truncate l) ∨
        e.prefixed (dotted h.labels) = l) ∨
      e.prefixed (dotted h.labels) = truncate (lastTwo h.labels)) : 0 ∉ dotted h.labels := by
  have hlt : ∀ s : List Byte, s.length ≤ (dotted h.labels).length →
      e.prefixed (dotted h.labels) ≠ s := by
    rintro s hle rfl
    rw [e.length_prefixed] at hle
    omega
  rcases hs with hs | hs | ⟨l, hl, hs | hs⟩ | hs
  · exact absurd hs (hlt _ le_rfl)
  · rw [e.prefixed_injective hs]
    exact not_mem_truncate _
  · rw [e.prefixed_injective hs]
    exact not_mem_truncate _
  · exact absurd hs (hlt _ (length_le_dotted (List.mem_of_mem_dropLast hl)))
  · refine absurd hs (hlt _ ((length_truncate_le _).trans ?_))
    by_cases h2 : 2 < h.labels.length
    · obtain ⟨pre, hpre, -⟩ := exists_dotted_eq_lastTwo h2
      rw [hpre, List.length_append, List.length_cons]
      omega
    · have hne := List.length_pos_iff.2 h.labels_ne
      obtain h1 | h2 : h.labels.length = 1 ∨ h.labels.length = 2 := by omega
      · obtain ⟨l, hl⟩ := List.length_eq_one_iff.1 h1
        rw [hl]
        exact Nat.zero_le _
      · rw [lastTwo_eq_dotted h2]

end CanonicalName

/-- **The stored strings are the documented ones** exactly for a host name
    without a zero byte that is asked for with a PTR query or has two labels:
    with more labels the entity before the last two is missing, and a single
    label adds the empty string. -/
theorem hostNameStrings_documented_iff (h : CanonicalName) (e : EntityName) (qtype : ℕ) :
    ∃ strings, hostNameStrings (dotted h.labels) (some e.bytes) qtype = some strings ∧
      ({s | ∃ stored ∈ strings, stored.name = s} = h.documented e qtype ↔
        0 ∉ dotted h.labels ∧ (qtype = ldnsRrTypePtr ∨ h.labels.length = 2)) := by
  obtain ⟨strings, hstr, hmem⟩ := h.exists_strings e qtype
  refine ⟨strings, hstr, ?_⟩
  constructor
  · intro heq
    have hdoc : ∀ s, (∃ stored ∈ strings, stored.name = s) ↔ s ∈ h.documented e qtype :=
      fun s => by rw [← heq]; rfl
    have hname : dotted h.labels ∈ h.parts qtype := by
      unfold CanonicalName.parts
      split_ifs
      · rfl
      · exact .inl rfl
    have h0 : 0 ∉ dotted h.labels := by
      refine h.truncate_eq_of_prefixed_mem e ?_
      rcases (hmem _).1 ((hdoc _).2 (.inr ⟨_, hname, rfl⟩)) with hs | hs | ⟨-, hs⟩
      · exact .inl hs
      · exact .inr (.inl hs)
      · exact .inr (.inr hs)
    refine ⟨h0, ?_⟩
    by_contra hcon
    rw [not_or] at hcon
    obtain ⟨hq, h2⟩ := hcon
    by_cases h1 : h.labels.length = 1
    · obtain ⟨l, hl⟩ := List.length_eq_one_iff.1 h1
      have hempty := (hdoc []).1 ((hmem []).2 (.inr (.inr ⟨hq, .inr (by rw [hl]; rfl)⟩)))
      rw [CanonicalName.documented, CanonicalName.parts, if_pos (.inr h1), Set.image_singleton]
        at hempty
      rcases hempty with hempty | hempty
      · exact h.dotted_ne hempty.symm
      · exact absurd (congrArg List.length hempty) (by rw [e.length_prefixed]; simp)
    · have hne := List.length_pos_iff.2 h.labels_ne
      have hlast : lastTwo h.labels ∈ h.parts qtype := by
        rw [CanonicalName.parts, if_neg (not_or.2 ⟨hq, h1⟩)]
        exact .inr (.inl rfl)
      refine h.prefixed_lastTwo_notMem e (by omega) ?_ rfl
      rcases (hmem _).1 ((hdoc _).2 (.inr ⟨_, hlast, rfl⟩)) with hs | hs | ⟨-, hs⟩
      · exact .inl hs
      · rw [truncate_eq_self h0] at hs
        exact .inr (.inl hs)
      · exact .inr (.inr hs)
  · rintro ⟨h0, hcase⟩
    have htr := truncate_eq_self h0
    ext s
    rw [Set.mem_ofPred_eq, hmem, htr]
    by_cases hq : qtype = ldnsRrTypePtr
    · simp [CanonicalName.documented, CanonicalName.parts, hq, or_comm]
    · have h2 := hcase.resolve_left hq
      have hpart : ∀ l ∈ h.labels.dropLast, truncate l = l := fun l hl =>
        truncate_eq_self fun hz => h0 (mem_dotted hz (List.mem_of_mem_dropLast hl))
      rw [CanonicalName.documented, CanonicalName.parts, if_neg (by rw [not_or]; exact ⟨hq, by omega⟩),
        lastTwo_eq_dotted h2, htr]
      constructor
      · rintro (rfl | rfl | ⟨-, ⟨l, hl, rfl | rfl⟩ | rfl⟩)
        · exact .inl (.inl rfl)
        · exact .inr ⟨_, .inl rfl, rfl⟩
        · rw [hpart l hl]
          exact .inr ⟨l, .inr (.inr hl), rfl⟩
        · exact .inl (.inr (.inr hl))
        · exact .inl (.inl rfl)
      · rintro ((rfl | rfl | hl) | ⟨t, rfl | rfl | hl, rfl⟩)
        · exact .inl rfl
        · exact .inl rfl
        · exact .inr (.inr ⟨hq, .inl ⟨s, hl, .inr rfl⟩⟩)
        · exact .inr (.inl rfl)
        · exact .inr (.inl rfl)
        · exact .inr (.inr ⟨hq, .inl ⟨t, hl, .inl (by rw [hpart t hl])⟩⟩)

/-- The name `a.b.c` and the entity `e`. -/
def threeLabels : CanonicalName where
  labels := [[0x61#8], [0x62#8], [0x63#8]]
  labels_ne := by decide
  label_ne := by decide
  dot_notMem := by decide
  lower := by decide
  length_le := by decide

def someEntity : EntityName := ⟨[0x65#8], by decide, by decide⟩

/-- For `a.b.c` the string `e@b.c` is not stored. -/
theorem hostNameStrings_threeLabels :
    ∃ strings, hostNameStrings (dotted threeLabels.labels) (some someEntity.bytes) 1 = some strings ∧
      {s | ∃ stored ∈ strings, stored.name = s} ≠ threeLabels.documented someEntity 1 := by
  obtain ⟨strings, hstr, hmem⟩ := threeLabels.exists_strings someEntity 1
  refine ⟨strings, hstr, fun heq => ?_⟩
  have hdoc : someEntity.prefixed (lastTwo threeLabels.labels) ∈ threeLabels.documented someEntity 1 :=
    .inr ⟨_, .inr (.inl rfl), rfl⟩
  rw [← heq] at hdoc
  have h0 : 0 ∉ dotted threeLabels.labels := by decide
  refine threeLabels.prefixed_lastTwo_notMem someEntity (by decide) ?_ rfl
  rcases (hmem _).1 hdoc with hs | hs | ⟨-, hs⟩
  · exact .inl hs
  · rw [truncate_eq_self h0] at hs
    exact .inr (.inl hs)
  · exact .inr (.inr hs)

end Honas

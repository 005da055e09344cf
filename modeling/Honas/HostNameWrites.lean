/-
  The scratch buffers of `honas_state_register_host_name_lookup`.

  The host name is the text that ldns makes of a domain name.  An octet that is not
  printable takes four bytes there, so the text of a name of 255 octets can be
  longer than the buffers.  `nameWrites` lists the writes to the three buffers.

  `nameWrites_inside_iff`: they stay inside exactly if the text, without its last
  dot, has at most 255 bytes, or 256 bytes in a query for a PTR record.
-/
import Honas.HostName

namespace Honas

open Bits CString

/-! ## The writes -/

/-- `local_host_name`, `localbuf` and `sld_buf`. -/
inductive ScratchBuffer where
  | localHostName
  | localbuf
  | sldBuf
deriving DecidableEq

/-- The size of a buffer. -/
def ScratchBuffer.size : ScratchBuffer → ℕ
  | localHostName => sizeofLocalHostName
  | localbuf => sizeofLocalbuf
  | sldBuf => sizeofSldBuf

/-- A write of `len` bytes at an offset of a buffer. -/
structure Write where
  buffer : ScratchBuffer
  off : ℕ
  len : ℕ
deriving DecidableEq

/-- A write stays inside of its buffer. -/
def Write.Inside (w : Write) : Prop := w.off + w.len ≤ w.buffer.size

instance (w : Write) : Decidable w.Inside := inferInstanceAs (Decidable (_ ≤ _))

/-- The writes for the entity name, the `@`, and the bytes that `strncat` appends with
    their terminator. -/
def entityWrites (entity : List Byte) (appended : ℕ) : List Write :=
  [⟨.localbuf, 0, sizeofLocalbuf⟩, ⟨.localbuf, entity.length, 1⟩,
    ⟨.localbuf, entity.length + 1, appended + 1⟩]

/-- The writes of the loop over the labels, where `part` is the bytes from
    `part_start` to `part_end`. -/
def partWrites (entity part : List Byte) : List Write :=
  let n := part.idxOf dot
  if _h : n < part.length then
    entityWrites entity n ++ [⟨.sldBuf, 0, part.length⟩, ⟨.sldBuf, part.length, 1⟩] ++
      partWrites entity (part.drop (n + 1))
  else []
termination_by part.length
decreasing_by simp only [List.length_drop]; omega

/-- The host name without a possible trailing `.`. -/
def strippedHostName (hostName : List Byte) : List Byte :=
  if hostName.getLast? = some dot then hostName.dropLast else hostName

/-- The writes for a lookup.  `beyond` is the memory behind `local_host_name`, which
    `strncat` reads if the host name has no terminator there. -/
def nameWrites (hostName entity : List Byte) (qtype : ℕ) (beyond : List Byte) : List Write :=
  let host := (strippedHostName hostName).map tolower
  let source := truncate (pad sizeofLocalHostName host ++ beyond)
  (List.range host.length).map (fun i => ⟨.localHostName, i, 1⟩) ++
    entityWrites entity (min source.length (sizeofLocalbuf - (entity.length + 1) - 1)) ++
    if qtype ≠ ldnsRrTypePtr then partWrites entity host else []

/-! ## Which writes stay inside -/

theorem entityWrites_inside {entity : List Byte} {appended : ℕ}
    (h : entity.length + appended + 2 ≤ sizeofLocalbuf) : ∀ w ∈ entityWrites entity appended, w.Inside := by
  simp only [entityWrites, List.forall_mem_cons, Write.Inside, ScratchBuffer.size]
  exact ⟨by omega, by omega, by omega, nofun⟩

/-- Short names stay inside. -/
theorem partWrites_inside {entity : List Byte} (he : entity.length < 128) : ∀ {part : List Byte},
    part.length ≤ 255 → ∀ w ∈ partWrites entity part, w.Inside := by
  intro part
  induction hn : part.length using Nat.strong_induction_on generalizing part with
  | _ n ih =>
    intro hle w hw
    subst hn
    rw [partWrites] at hw
    split_ifs at hw with hdot
    · rw [List.mem_append, List.mem_append] at hw
      rcases hw with (hw | hw) | hw
      · exact entityWrites_inside (by unfold sizeofLocalbuf; omega) w hw
      · simp only [List.mem_cons, List.not_mem_nil, or_false] at hw
        have hsize : ScratchBuffer.sldBuf.size = 256 := rfl
        rcases hw with rfl | rfl
        · simp only [Write.Inside, hsize]
          omega
        · simp only [Write.Inside, hsize]
          omega
      · exact ih _ (by rw [List.length_drop]; omega) rfl (by rw [List.length_drop]; omega) w hw
    · cases hw

/-- A long name with a dot overruns `sld_buf`. -/
theorem partWrites_outside {entity part : List Byte} (hdot : dot ∈ part) (hlong : 255 < part.length) :
    ∃ w ∈ partWrites entity part, ¬ w.Inside := by
  refine ⟨⟨.sldBuf, part.length, 1⟩, ?_, ?_⟩
  · rw [partWrites, dif_pos (List.idxOf_lt_length_of_mem hdot)]
    simp
  · have hsize : ScratchBuffer.sldBuf.size = 256 := rfl
    simp only [Write.Inside, hsize]
    omega

/-- **Which writes stay inside**, for a name with or without a dot. -/
theorem nameWrites_inside {hostName : List Byte} (e : EntityName) (qtype : ℕ) (beyond : List Byte)
    (hdot : (strippedHostName hostName).length = 256 → dot ∈ (strippedHostName hostName).map tolower) :
    (∀ w ∈ nameWrites hostName e.bytes qtype beyond, w.Inside) ↔
      (strippedHostName hostName).length ≤ 255 ∨
        (strippedHostName hostName).length = 256 ∧ qtype = ldnsRrTypePtr := by
  have he := e.length_lt
  have hlen : ((strippedHostName hostName).map tolower).length = (strippedHostName hostName).length :=
    List.length_map _
  unfold nameWrites
  dsimp only
  rw [hlen]
  constructor
  · intro h
    have hle : (strippedHostName hostName).length ≤ 256 := by
      by_contra hgt
      have hlast := h ⟨.localHostName, 256, 1⟩ (List.mem_append_left _ (List.mem_append_left _
        (List.mem_map.2 ⟨256, List.mem_range.2 (by omega), rfl⟩)))
      exact absurd hlast (by decide)
    rcases Nat.lt_or_ge (strippedHostName hostName).length 256 with hlt | hge
    · exact Or.inl (by omega)
    have hfull : (strippedHostName hostName).length = 256 := by omega
    refine Or.inr ⟨hfull, ?_⟩
    by_contra hq
    have hpart : ∃ w ∈ partWrites e.bytes ((strippedHostName hostName).map tolower), ¬ w.Inside :=
      partWrites_outside (hdot hfull) (by omega)
    obtain ⟨w, hw, hout⟩ := hpart
    exact hout (h w (List.mem_append_right _ (by rwa [if_pos hq])))
  · intro h w hw
    have hle : (strippedHostName hostName).length ≤ 256 := by omega
    rw [List.mem_append, List.mem_append] at hw
    rcases hw with (hw | hw) | hw
    · obtain ⟨i, hi, rfl⟩ := List.mem_map.1 hw
      have hlt := List.mem_range.1 hi
      simp only [Write.Inside, ScratchBuffer.size, sizeofLocalHostName]
      omega
    · exact entityWrites_inside (by unfold sizeofLocalbuf; omega) w hw
    · split_ifs at hw with hq
      · exact partWrites_inside he (by omega) w hw
      · cases hw

/-- Strings that are computed are written inside of the buffers. -/
theorem hostNameStrings_inside {hostName : List Byte} (e : EntityName) {qtype : ℕ}
    {names : List StoredName} (h0 : hostName ≠ []) (hz : 0 ∉ hostName)
    (h : hostNameStrings hostName (some e.bytes) qtype = some names) (beyond : List Byte) :
    ∀ w ∈ nameWrites hostName e.bytes qtype beyond, w.Inside := by
  have hle := (hostNameStrings_isSome_iff e qtype h0 hz).1 ⟨names, h⟩
  have hstrip : strippedHostName hostName =
      if hostName.getLast h0 = dot then hostName.dropLast else hostName := by
    rw [strippedHostName, List.getLast?_eq_some_getLast h0]
    simp only [Option.some_inj]
  rw [← hstrip] at hle
  exact (nameWrites_inside e qtype beyond fun hfull => by omega).2 (Or.inl hle)

/-! ## The text of a domain name -/

/-- `isgraph`, in the C locale. -/
def isgraph (c : Byte) : Bool := 0x21#8 ≤ c && c ≤ 0x7e#8

/-- `isdigit`. -/
def isdigit (c : Byte) : Bool := 0x30#8 ≤ c && c ≤ 0x39#8

/-- The backslash. -/
def backslash : Byte := 0x5c#8

/-- What `ldns_rdf2str` writes for an octet: a printable one, possibly behind a
    backslash, or a backslash and three digits. -/
structure LdnsOctet where
  text : Byte → List Byte
  printable : ∀ c, isgraph c → text c = [c] ∨ text c = [backslash, c]
  other : ∀ c, ¬ isgraph c → ∃ d₂ d₁ d₀, (isdigit d₂ ∧ isdigit d₁ ∧ isdigit d₀) ∧
    text c = [backslash, d₂, d₁, d₀]

/-- A domain name: its labels, and the limits on their wire format. -/
structure DomainName where
  labels : List (List Byte)
  label : ∀ l ∈ labels, 1 ≤ l.length ∧ l.length ≤ 63
  wire : (labels.map fun l => l.length + 1).sum + 1 ≤ 255

namespace LdnsOctet

variable (ldns : LdnsOctet)

/-- The text of a label. -/
def label (l : List Byte) : List Byte := l.flatMap ldns.text

/-- `ldns_rdf2str` of a domain name: each label is followed by a dot. -/
def rdf2str (name : DomainName) : List Byte :=
  if name.labels = [] then [dot] else name.labels.flatMap fun l => ldns.label l ++ [dot]

/-- The length of the text without its last dot: that of the labels and of the dots
    between them. -/
def textLength (name : DomainName) : ℕ :=
  (name.labels.map fun l => (ldns.label l).length).sum + (name.labels.length - 1)

theorem length_label_le : ∀ l : List Byte, (ldns.label l).length ≤ 4 * l.length
  | [] => Nat.le_refl 0
  | c :: l => by
    have ih := length_label_le l
    have hc : (ldns.text c).length ≤ 4 := by
      by_cases hg : isgraph c
      · rcases ldns.printable c hg with h | h <;> simp [h]
      · obtain ⟨d₂, d₁, d₀, -, h⟩ := ldns.other c hg
        simp [h]
    rw [label] at ih ⊢
    rw [List.flatMap_cons, List.length_append, List.length_cons]
    omega

theorem stripped_rdf2str (name : DomainName) :
    ldns.rdf2str name = strippedHostName (ldns.rdf2str name) ++ [dot] := by
  have hlast : (ldns.rdf2str name).getLast? = some dot := by
    rw [rdf2str]
    split_ifs with h
    · rfl
    · obtain ⟨ls, l, hl⟩ := List.eq_nil_or_concat'  name.labels |>.resolve_left h
      rw [hl, List.flatMap_append]
      simp
  rw [strippedHostName, if_pos hlast]
  exact (List.dropLast_append_getLast? dot hlast).symm

theorem length_stripped (name : DomainName) :
    (strippedHostName (ldns.rdf2str name)).length = ldns.textLength name := by
  have hlen := congrArg List.length (ldns.stripped_rdf2str name)
  rw [List.length_append, List.length_singleton] at hlen
  have hsum : ∀ ls : List (List Byte), (ls.flatMap fun l => ldns.label l ++ [dot]).length =
      (ls.map fun l => (ldns.label l).length).sum + ls.length := by
    intro ls
    induction ls with
    | nil => rfl
    | cons l ls ih =>
      rw [List.flatMap_cons, List.length_append, ih, List.map_cons, List.sum_cons,
        List.length_append, List.length_singleton, List.length_cons]
      omega
  have htext : (ldns.rdf2str name).length = ldns.textLength name + 1 := by
    rw [rdf2str, textLength]
    split_ifs with h
    · rw [h]
      rfl
    · have hpos := List.length_pos_iff.2 h
      rw [hsum]
      omega
  omega

/-- A text of 256 bytes has more than one label. -/
theorem dot_mem_stripped {name : DomainName} (h : ldns.textLength name = 256) :
    dot ∈ (strippedHostName (ldns.rdf2str name)).map tolower := by
  refine List.mem_map.2 ⟨dot, ?_, by decide⟩
  have hlabel := name.label
  rw [textLength] at h
  rcases hl : name.labels with _ | ⟨l, _ | ⟨l', ls⟩⟩
  · rw [hl] at h
    cases h
  · -- one label has at most 252 bytes
    rw [hl] at h hlabel
    have h1 := ldns.length_label_le l
    have h2 := (hlabel l (List.mem_singleton_self l)).2
    simp at h
    omega
  · have htext : ldns.rdf2str name =
        ldns.label l ++ [dot] ++ (l' :: ls).flatMap fun l => ldns.label l ++ [dot] := by
      rw [rdf2str, hl, if_neg (List.cons_ne_nil _ _), List.flatMap_cons]
    have hrest : 1 ≤ ((l' :: ls).flatMap fun l => ldns.label l ++ [dot]).length := by
      rw [List.flatMap_cons, List.length_append, List.length_append, List.length_singleton]
      omega
    have hlen := congrArg List.length (htext.symm.trans (ldns.stripped_rdf2str name))
    rw [List.length_append, List.length_append, List.length_append, List.length_singleton] at hlen
    have hfirst : ldns.label l ++ [dot] <+: strippedHostName (ldns.rdf2str name) ++ [dot] := by
      rw [← ldns.stripped_rdf2str name, htext]
      exact List.prefix_append _ _
    have hprefix : ldns.label l ++ [dot] <+: strippedHostName (ldns.rdf2str name) := by
      refine List.prefix_of_prefix_length_le hfirst (List.prefix_append _ _) ?_
      rw [List.length_append, List.length_singleton]
      omega
    exact hprefix.subset (List.mem_append_right _ (List.mem_singleton_self dot))

end LdnsOctet

/-- **The buffers suffice** for a domain name and an entity exactly if the text of the
    name, without its last dot, has at most 255 bytes, or 256 bytes in a query for a
    PTR record. -/
theorem nameWrites_inside_iff (ldns : LdnsOctet) (name : DomainName) (e : EntityName) (qtype : ℕ)
    (beyond : List Byte) :
    (∀ w ∈ nameWrites (ldns.rdf2str name) e.bytes qtype beyond, w.Inside) ↔
      ldns.textLength name ≤ 255 ∨ ldns.textLength name = 256 ∧ qtype = ldnsRrTypePtr := by
  rw [← ldns.length_stripped]
  refine nameWrites_inside e qtype beyond fun h => ?_
  rw [ldns.length_stripped] at h
  exact ldns.dot_mem_stripped h

/-- A decimal digit. -/
def digit (d : ℕ) : Byte := BitVec.ofNat 8 (0x30 + d % 10)

theorem isdigit_digit (d : ℕ) : isdigit (digit d) := by
  have h : ∀ r < 10, isdigit (BitVec.ofNat 8 (0x30 + r)) := by decide
  exact h _ (Nat.mod_lt d (by decide))

/-- The characters that are written behind a backslash: `.`, `;`, `(`, `)` and the
    backslash. -/
def escapedOctets : List Byte := [dot, 0x3b#8, 0x28#8, 0x29#8, backslash]

/-- The octets as ldns writes them. -/
def ldnsOctet : LdnsOctet where
  text c :=
    if isgraph c then if c ∈ escapedOctets then [backslash, c] else [c]
    else [backslash, digit (c.toNat / 100), digit (c.toNat / 10), digit c.toNat]
  printable c h := by
    rw [if_pos h]
    split_ifs
    · exact Or.inr rfl
    · exact Or.inl rfl
  other c h := ⟨_, _, _, ⟨isdigit_digit _, isdigit_digit _, isdigit_digit _⟩, if_neg h⟩

/-- A name of two labels, with 63 octets and one octet that are not printable. -/
def unprintableName : DomainName where
  labels := [List.replicate 63 0xff#8, [0xff#8]]
  label := by decide
  wire := by decide

/-- The text of the name has 257 bytes without its last dot, and the last of them overruns
    `local_host_name`. -/
theorem nameWrites_overrun : ldnsOctet.textLength unprintableName = 257 ∧
    ¬ ∀ w ∈ nameWrites (ldnsOctet.rdf2str unprintableName) someEntity.bytes 1 [], w.Inside := by
  have hlen : ldnsOctet.textLength unprintableName = 257 := by decide +kernel
  refine ⟨hlen, fun h => ?_⟩
  rw [nameWrites_inside_iff, hlen] at h
  exact absurd h (by decide)

end Honas

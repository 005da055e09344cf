/-
  Searching for the names of a blacklist (`scripts/query_generic_blacklist.py`).

  For every domain name the script generates the hash of the name, and of the name with
  every entity and an at sign before it.  It hashes a name as it is written, while the
  collector stores names in lower case and without a trailing dot.

  * `blacklistHashes_iff`: a lookup is found exactly if the blacklist has the name in
    lower case and without a trailing dot.
-/
import Honas.GatherDecode

namespace Honas

open Bits CString

/-- The bytes that `str.strip` removes: blanks, tabs and line ends. -/
def isSpace (c : Byte) : Bool := c = 0x20#8 ∨ (0x09#8 ≤ c ∧ c ≤ 0x0d#8)

/-- `str.strip`. -/
def strip (s : List Byte) : List Byte := (s.dropWhile isSpace).rdropWhile isSpace

/-- The keys for which the script sets a hash, in this order, from the first columns of the
    two files.  An entity named as the unknown one gives a key twice, which is in the
    dictionary once. -/
def searchKeys (blacklist entities : List (List Byte)) : List (List Byte) :=
  (blacklist.map strip).dedup.flatMap fun k =>
    k :: (entities.dedup.map fun k1 => k1 ++ atSign :: k) ++ [unknownEntity.bytes ++ atSign :: k]

/-- `searchdata["groups"][0]["hostnames"]`. -/
def searchHostnames (sha256 : List Byte → Digest) (blacklist entities : List (List Byte)) :
    List (List Byte × Digest) :=
  (searchKeys blacklist entities).map fun k => (k, sha256 k)

/-- The hashes that a lookup stores. -/
def storedHashes (sha256 : List Byte → Digest) (names : List StoredName) : List Digest :=
  names.map fun stored => sha256 stored.name

/-- A name without a trailing dot, in lower case. -/
def foldName (name : List Byte) : List Byte :=
  (if name.getLast? = some dot then name.dropLast else name).map tolower

/-- The names are equal up to letter case and a trailing dot. -/
def SameName (d name : List Byte) : Prop := foldName d = foldName name

instance (d name : List Byte) : Decidable (SameName d name) :=
  inferInstanceAs (Decidable (_ = _))

/-- The collector's form of a name. -/
theorem canonicalHostName_eq_foldName {name host : List Byte}
    (h : canonicalHostName name = some host) : host = foldName name := by
  rw [canonicalHostName] at h
  obtain ⟨last, hlast, h⟩ := Option.bind_eq_some_iff.1 h
  have hguard : ∀ {t : List Byte}, (if t.length ≤ sizeofLocalHostName then some (t.map tolower)
      else none) = some host → host = t.map tolower := by
    intro t ht
    split_ifs at ht
    exact (Option.some.inj ht).symm
  rw [foldName, hlast]
  by_cases hdot : last = dot
  · rw [if_pos hdot] at h
    rw [if_pos (congrArg some hdot)]
    exact hguard h
  · rw [if_neg hdot] at h
    rw [if_neg fun heq => hdot (Option.some.inj heq)]
    exact hguard h

/-- The key of a name and an entity is the one that is hashed with the name. -/
theorem mem_searchKeys {blacklist entities : List (List Byte)} {row entity : List Byte}
    (hrow : row ∈ blacklist) (he : entity ∈ entities) :
    strip row ∈ searchKeys blacklist entities ∧
      entity ++ atSign :: strip row ∈ searchKeys blacklist entities := by
  have hdomain : strip row ∈ (blacklist.map strip).dedup :=
    List.mem_dedup.2 (List.mem_map_of_mem hrow)
  have hentity := List.mem_map_of_mem (f := fun k1 => k1 ++ atSign :: strip row)
    (List.mem_dedup.2 he)
  refine ⟨List.mem_flatMap.2 ⟨_, hdomain, ?_⟩, List.mem_flatMap.2 ⟨_, hdomain, ?_⟩⟩
  · exact List.mem_cons_self ..
  · exact List.mem_append_left _ (List.mem_cons_of_mem _ hentity)

theorem tolower_tolower (c : Byte) : tolower (tolower c) = tolower c := by
  revert c
  decide

/-- A name is its own folding exactly if it is in lower case and has no trailing dot. -/
theorem foldName_eq_self_iff {d : List Byte} :
    foldName d = d ↔ (∀ c ∈ d, tolower c = c) ∧ d.getLast? ≠ some dot := by
  rw [foldName]
  constructor
  · intro h
    have hlast : d.getLast? ≠ some dot := by
      intro hdot
      rw [if_pos hdot] at h
      have hlen := congrArg List.length h
      rw [List.length_map, List.length_dropLast] at hlen
      have hne : d ≠ [] := by rintro rfl; cases hdot
      have := List.length_pos_iff.2 hne
      omega
    rw [if_neg hlast] at h
    refine ⟨fun c hc => ?_, hlast⟩
    rw [← h] at hc
    obtain ⟨c', -, rfl⟩ := List.mem_map.1 hc
    exact tolower_tolower c'
  · rintro ⟨hlower, hlast⟩
    rw [if_neg hlast, List.map_congr_left hlower, List.map_id']

theorem length_foldName_le (d : List Byte) : (foldName d).length ≤ d.length := by
  rw [foldName, List.length_map]
  split_ifs
  · rw [List.length_dropLast]; omega
  · exact le_rfl

/-- Where the entity and a name that is not shorter occur among the strings of a lookup. -/
theorem prefixed_mem_names {qname : NameString} {e : EntityName} {qtype : ℕ}
    {names : List StoredName}
    (h : hostNameStrings qname.bytes (some e.bytes) qtype = some names) :
    (∃ stored ∈ names, stored.name = foldName qname.bytes) ∧
      ∀ d : List Byte, (foldName qname.bytes).length ≤ d.length →
        ((∃ stored ∈ names, stored.name = e.prefixed d) ↔ d = foldName qname.bytes) := by
  obtain ⟨host, hcanonical, -⟩ := Option.bind_eq_some_iff.1 h
  have hhost := canonicalHostName_eq_foldName hcanonical
  have hle := (hostNameStrings_isSome_iff e qtype qname.ne_nil qname.not_mem).1 ⟨names, h⟩
  have hzero : 0 ∉ host := by
    rw [hhost, foldName]
    intro hmem
    obtain ⟨c, hc, h0⟩ := List.mem_map.1 hmem
    have hc' : c ∈ qname.bytes := by
      split_ifs at hc
      exacts [List.mem_of_mem_dropLast hc, hc]
    exact tolower_ne_zero (fun hz => qname.not_mem (hz ▸ hc')) h0
  have hlen : host.length ≤ 255 := by
    rw [hhost, foldName, List.length_map, List.getLast?_eq_some_getLast qname.ne_nil]
    simpa only [Option.some_inj] using hle
  obtain ⟨labels, hne, hdot, hlabels⟩ := exists_labels host
  rw [← hhost]
  have hspec := hostNameStrings_spec (some e) qtype hcanonical hlen hne hdot hlabels
  obtain rfl := Option.some.inj (h.symm.trans hspec)
  rw [truncate_eq_self hzero]
  refine ⟨⟨_, List.mem_append_left _ (List.mem_cons_self ..), rfl⟩, fun d hd => ⟨?_, ?_⟩⟩
  · have hlong := e.length_prefixed d
    have hshort : ∀ s : List Byte, s.length ≤ host.length → s ≠ e.prefixed d := by
      rintro s hs rfl
      omega
    rintro ⟨stored, hmem, hname⟩
    rcases List.mem_append.1 hmem with hmem | hmem
    · rcases List.mem_cons.1 hmem with rfl | hmem
      · exact absurd hname (hshort _ le_rfl)
      · rw [List.mem_singleton.1 hmem] at hname
        exact (e.prefixed_injective hname).symm
    · -- the strings of the labels and of the last two labels are shorter
      split_ifs at hmem with hq
      · rcases List.mem_append.1 hmem with hmem | hmem
        · obtain ⟨label, hlabel, hmem⟩ := List.mem_flatMap.1 hmem
          have hlt := length_lt_dotted hlabel
          rw [hlabels] at hlt
          simp only [labelStrings, List.cons_append, List.nil_append, List.mem_cons,
            List.not_mem_nil, or_false] at hmem
          rcases hmem with rfl | rfl
          · have hdl := e.prefixed_injective hname
            have htl := length_truncate_le label
            rw [hdl] at htl
            omega
          · exact absurd hname (hshort _ hlt.le)
        · rw [List.mem_singleton.1 hmem] at hname
          have hlast := length_lastTwo_le labels
          rw [hlabels] at hlast
          exact absurd hname (hshort _ ((length_truncate_le _).trans hlast))
      · cases hmem
  · rintro rfl
    exact ⟨⟨e.prefixed d, false⟩, List.mem_append_left _ (by
      rw [EntityName.prefixed]; exact List.mem_cons_of_mem _ (List.mem_singleton_self _)), rfl⟩

/-- **Searching for a name of the blacklist** finds a lookup of that name exactly if the
    blacklist has it in lower case and without a trailing dot, unless hashes collide. -/
theorem blacklistHashes_iff (sha256 : List Byte → Digest) {blacklist entities : List (List Byte)}
    {row : List Byte} (hrow : row ∈ blacklist) {e : EntityName} (he : e.bytes ∈ entities)
    {qname : NameString} (hsame : SameName (strip row) qname.bytes) {qtype : ℕ}
    {names : List StoredName}
    (hnames : hostNameStrings qname.bytes (some e.bytes) qtype = some names)
    (hfree : ∀ stored ∈ names, ∀ key ∈ [strip row, e.prefixed (strip row)],
      sha256 stored.name = sha256 key → stored.name = key) :
    ∃ h₁ h₂, (strip row, h₁) ∈ searchHostnames sha256 blacklist entities ∧
      (e.prefixed (strip row), h₂) ∈ searchHostnames sha256 blacklist entities ∧
      ((h₁ ∈ storedHashes sha256 names ∧ h₂ ∈ storedHashes sha256 names) ↔
        (∀ c ∈ strip row, tolower c = c) ∧ (strip row).getLast? ≠ some dot) := by
  obtain ⟨hkey, hcompound⟩ := mem_searchKeys hrow he
  obtain ⟨hhost, hprefixed⟩ := prefixed_mem_names hnames
  rw [← hsame] at hhost hprefixed
  have hiff := hprefixed (strip row) (length_foldName_le _)
  refine ⟨_, _, List.mem_map_of_mem hkey, List.mem_map_of_mem hcompound, ?_⟩
  rw [← foldName_eq_self_iff]
  constructor
  · rintro ⟨-, hmem⟩
    obtain ⟨stored, hs, heq⟩ := List.mem_map.1 hmem
    exact (hiff.1 ⟨stored, hs, hfree stored hs _ (by simp) heq⟩).symm
  · intro hself
    rw [hself] at hhost
    obtain ⟨stored, hs, hname⟩ := hhost
    obtain ⟨stored', hs', hname'⟩ := hiff.2 hself.symm
    exact ⟨List.mem_map.2 ⟨stored, hs, congrArg sha256 hname⟩,
      List.mem_map.2 ⟨stored', hs', congrArg sha256 hname'⟩⟩

/-- The names `a.b.`, `a.b` and `A.b`. -/
def lookedUp : NameString := ⟨[0x61, 0x2e, 0x62, 0x2e], by decide, by decide⟩
def lowerName : List Byte := [0x61, 0x2e, 0x62]
def upperName : List Byte := [0x41, 0x2e, 0x62]

/-- The digest with the given number, most significant byte first. -/
def digestOf (n : ℕ) : Digest := ⟨(toLE 32 n).reverse, by rw [List.length_reverse, length_toLE]⟩

/-- SHA-256 of `a.b`, `e@a.b`, `e@a`, `a`, `A.b` and `e@A.b`. -/
def sha256OfNames (s : List Byte) : Digest :=
  if s = lowerName then
    digestOf 0x2e7336dc8eba87ef472df568c35482abf2575dc3e5eac0c5c62b8ffaeac2c934
  else if s = someEntity.prefixed lowerName then
    digestOf 0x82e2a2bfb79e8fbcfb072cdbf6f522a806dbe1bf2047a72670fbda65fd1963a8
  else if s = someEntity.prefixed [0x61] then
    digestOf 0xcdd3b2066397592a42ca6cf38415ff331873fd41f824050cdd5185e27aab2b49
  else if s = [0x61] then
    digestOf 0xca978112ca1bbdcafac231b39a23dc4da786eff8147c4e72b9807785afee48bb
  else if s = upperName then
    digestOf 0x4ff54a775f90577ebb64bf2e331a12b2da65fea91033ee2088820296435f1973
  else if s = someEntity.prefixed upperName then
    digestOf 0x43c0fc1c1a58bd88367cedb2d0d2d12ea0b9a08a8f3f0b22f362c4b0e9dbce80
  else digestOf 0

instance : DecidableEq Digest := inferInstanceAs (DecidableEq { d : List Byte // d.length = 32 })

/-- The strings that the lookup of `a.b.` stores for the entity `e`. -/
theorem lookedUp_names : hostNameStrings lookedUp.bytes (some someEntity.bytes) 1 =
    some [⟨lowerName, true⟩, ⟨someEntity.prefixed lowerName, false⟩,
      ⟨someEntity.prefixed [0x61], false⟩, ⟨[0x61], false⟩, ⟨lowerName, false⟩] :=
  hostNameStrings_spec (some someEntity) 1 rfl (by decide)
    (show [[0x61#8], [0x62#8]] ≠ [] by decide) (by decide) rfl

/-- The name in lower case is found. -/
theorem blacklistHashes_lowerName : ∃ h₁ h₂,
    (lowerName, h₁) ∈ searchHostnames sha256OfNames [lowerName] [someEntity.bytes] ∧
    (someEntity.prefixed lowerName, h₂) ∈
      searchHostnames sha256OfNames [lowerName] [someEntity.bytes] ∧
    ((h₁ ∈ storedHashes sha256OfNames [⟨lowerName, true⟩, ⟨someEntity.prefixed lowerName, false⟩,
        ⟨someEntity.prefixed [0x61], false⟩, ⟨[0x61], false⟩, ⟨lowerName, false⟩] ∧
      h₂ ∈ storedHashes sha256OfNames [⟨lowerName, true⟩, ⟨someEntity.prefixed lowerName, false⟩,
        ⟨someEntity.prefixed [0x61], false⟩, ⟨[0x61], false⟩, ⟨lowerName, false⟩]) ↔
      (∀ c ∈ lowerName, tolower c = c) ∧ lowerName.getLast? ≠ some dot) :=
  blacklistHashes_iff sha256OfNames (show lowerName ∈ [lowerName] from List.mem_singleton_self _)
    (e := someEntity) (List.mem_singleton_self _)
    (show SameName (strip lowerName) lookedUp.bytes by decide) lookedUp_names (by decide +kernel)

/-- The name with a capital letter is not found. -/
theorem not_blacklistHashes : ¬ ∀ (blacklist entities : List (List Byte)),
    ∀ row ∈ blacklist, ∀ e : EntityName, e.bytes ∈ entities → ∀ qname : NameString,
    SameName (strip row) qname.bytes → ∀ (qtype : ℕ) (names : List StoredName),
    hostNameStrings qname.bytes (some e.bytes) qtype = some names →
    ∀ key ∈ [strip row, e.prefixed (strip row)], ∀ h,
      (key, h) ∈ searchHostnames sha256OfNames blacklist entities →
        h ∈ storedHashes sha256OfNames names := by
  intro hall
  have hstored := hall [upperName] [someEntity.bytes] upperName (List.mem_singleton_self _) someEntity
    (List.mem_singleton_self _) lookedUp (by decide) 1 _ lookedUp_names upperName (by decide)
    (sha256OfNames upperName) (by decide +kernel)
  revert hstored
  decide +kernel

end Honas

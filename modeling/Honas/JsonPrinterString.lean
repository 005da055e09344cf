/-
  How the JSON printer writes a string (`_json_printer_write_string`).

  The bytes of a string are written between quotation marks, each class of bytes
  by a branch of its own.  The branch of the printable characters puts a slash
  where JSON wants a backslash, and ends one character too early:
  `json_string_round_trip_iff` gives the texts that can be read back,
  `readBackAs_self_iff` for any bytes.  A call is `Written` when the program does
  not die in it.
-/
import Honas.JsonPrinter
import Honas.Lib.CString
import Honas.Lib.JsonString

namespace Honas

open Bits CString

/-! ## The loop -/

/-- What follows a byte behind 0x7f: the number of bytes that continue its
    sequence. -/
def utf8Continuation (c : Byte) : Option ℕ :=
  if c &&& 0xe0#8 = 0xc0#8 then some 1
  else if c &&& 0xf0#8 = 0xe0#8 then some 2
  else if c &&& 0xf8#8 = 0xf0#8 then some 3
  else if c &&& 0xfc#8 = 0xf8#8 then some 4
  else if c &&& 0xfe#8 = 0xfc#8 then some 5
  else none

/-- The loop of `_json_printer_write_string`, when `len` more bytes of a sequence
    are expected; the string ends with its last byte, or at a zero.  The program
    dies at a character it does not know. -/
def jsonPrinterWriteLoop : ℕ → List Byte → Option (List Byte)
  | 0, [] => some [0x22#8]
  | _ + 1, [] => none
  | 0, c :: val =>
    if c = 0 then some [0x22#8]
    else if 0x20#8 ≤ c ∧ c < 0x7e#8 then
      let out := if c = 0x22#8 ∨ c = 0x5c#8 ∨ c = 0x2f#8 then [0x2f#8, c] else [c]
      (jsonPrinterWriteLoop 0 val).map (out ++ ·)
    else if c = 0x08#8 then (jsonPrinterWriteLoop 0 val).map ([0x5c#8, 0x62#8] ++ ·)
    else if c = 0x0c#8 then (jsonPrinterWriteLoop 0 val).map ([0x5c#8, 0x66#8] ++ ·)
    else if c = 0x0a#8 then (jsonPrinterWriteLoop 0 val).map ([0x5c#8, 0x6e#8] ++ ·)
    else if c = 0x0d#8 then (jsonPrinterWriteLoop 0 val).map ([0x5c#8, 0x72#8] ++ ·)
    else if c = 0x09#8 then (jsonPrinterWriteLoop 0 val).map ([0x5c#8, 0x74#8] ++ ·)
    else if c > 0x7f#8 then
      match utf8Continuation c with
      | some len => (jsonPrinterWriteLoop len val).map (c :: ·)
      | none => none
    else none
  | len + 1, c :: val =>
    if c = 0 ∨ c &&& 0xc0#8 ≠ 0x80#8 then none
    else (jsonPrinterWriteLoop len val).map (c :: ·)

/-- `_json_printer_write_string`: what is written, or `none` when the program
    dies. -/
def jsonPrinterWriteString (val : List Byte) : Option (List Byte) :=
  (jsonPrinterWriteLoop 0 val).map (0x22#8 :: ·)

/-! ## Character by character -/

/-- The characters that get a slash. -/
def Slashed (c : Char) : Prop := c.toNat = 0x22 ∨ c.toNat = 0x5c ∨ c.toNat = 0x2f

instance : DecidablePred Slashed := fun c =>
  inferInstanceAs (Decidable (c.toNat = 0x22 ∨ c.toNat = 0x5c ∨ c.toNat = 0x2f))

/-- The letter that is written behind a backslash. -/
def escapeLetter (c : Char) : Option Byte :=
  if c.toNat = 0x08 then some 0x62
  else if c.toNat = 0x0c then some 0x66
  else if c.toNat = 0x0a then some 0x6e
  else if c.toNat = 0x0d then some 0x72
  else if c.toNat = 0x09 then some 0x74
  else none

/-- What is written for a character. -/
def writtenChar (c : Char) : Option (List Byte) :=
  if Slashed c then some (0x2f#8 :: utf8Char c)
  else
    match escapeLetter c with
    | some e => some [0x5c#8, e]
    | none => if c.toNat < 0x20 ∨ c.toNat = 0x7e ∨ c.toNat = 0x7f then none else some (utf8Char c)

/-- The letters are those of JSON. -/
theorem escapeLetter_eq_some {c : Char} {e : Byte} (h : escapeLetter c = some e) :
    JsonEscape e c ∧ c.toNat ∈ [0x08, 0x09, 0x0a, 0x0c, 0x0d] := by
  rw [escapeLetter] at h
  split_ifs at h with h₁ h₂ h₃ h₄ h₅
  · obtain rfl := Option.some_inj.1 h
    simp [JsonEscape, h₁]
  · obtain rfl := Option.some_inj.1 h
    simp [JsonEscape, h₂]
  · obtain rfl := Option.some_inj.1 h
    simp [JsonEscape, h₃]
  · obtain rfl := Option.some_inj.1 h
    simp [JsonEscape, h₄]
  · obtain rfl := Option.some_inj.1 h
    simp [JsonEscape, h₅]

theorem exists_escapeLetter {c : Char} (h : c.toNat ∈ [0x08, 0x09, 0x0a, 0x0c, 0x0d]) :
    ∃ e, escapeLetter c = some e := by
  simp only [List.mem_cons, List.not_mem_nil, or_false] at h
  rcases h with h | h | h | h | h <;> simp [escapeLetter, h]

/-- Only control characters have a letter. -/
theorem escapeLetter_of_le {c : Char} (h : 0x20 ≤ c.toNat) : escapeLetter c = none := by
  rw [escapeLetter]
  repeat rw [if_neg (by omega)]

/-- Bytes that continue a sequence are written as they are. -/
theorem writeLoop_tail : ∀ {tail : List Byte} {val : List Byte}, (∀ b ∈ tail, IsTail b) →
    jsonPrinterWriteLoop tail.length (tail ++ val) =
      (jsonPrinterWriteLoop 0 val).map (tail ++ ·)
  | [], val, _ => by
    simp
  | b :: tail, val, h => by
    rw [List.forall_mem_cons] at h
    have hb : ¬ (b = 0 ∨ b &&& 0xc0#8 ≠ 0x80#8) := by
      rintro (rfl | hb)
      · exact absurd h.1 (by unfold IsTail; decide)
      · exact hb h.1
    rw [List.length_cons, List.cons_append, jsonPrinterWriteLoop, if_neg hb, writeLoop_tail h.2,
      Option.map_map]
    rfl

/-- A first byte is behind 0x7f, and says how many bytes follow. -/
theorem utf8Continuation_eq : ∀ k < 256,
    (BitVec.ofNat 8 k &&& 0xe0#8 = 0xc0#8 →
      0x80 ≤ k ∧ utf8Continuation (BitVec.ofNat 8 k) = some 1) ∧
    (BitVec.ofNat 8 k &&& 0xf0#8 = 0xe0#8 →
      0x80 ≤ k ∧ utf8Continuation (BitVec.ofNat 8 k) = some 2) ∧
    (BitVec.ofNat 8 k &&& 0xf8#8 = 0xf0#8 →
      0x80 ≤ k ∧ utf8Continuation (BitVec.ofNat 8 k) = some 3) := by
  decide +kernel

/-- A byte behind 0x7f starts a sequence. -/
theorem writeLoop_lead {lead : Byte} (h : 0x80 ≤ lead.toNat) (val : List Byte) {len : ℕ}
    (hlen : utf8Continuation lead = some len) :
    jsonPrinterWriteLoop 0 (lead :: val) = (jsonPrinterWriteLoop len val).map (lead :: ·) := by
  have hne : ∀ {b : Byte}, b.toNat < 0x80 → lead ≠ b := by
    rintro b hb rfl
    omega
  have hprint : ¬ (0x20#8 ≤ lead ∧ lead < 0x7e#8) := by
    rw [BitVec.lt_def]
    simp only [BitVec.toNat_ofNat]
    omega
  have hgt : lead > 0x7f#8 := by
    rw [gt_iff_lt, BitVec.lt_def]
    simp only [BitVec.toNat_ofNat]
    omega
  rw [jsonPrinterWriteLoop, if_neg (hne (by decide)), if_neg hprint, if_neg (hne (by decide)),
    if_neg (hne (by decide)), if_neg (hne (by decide)), if_neg (hne (by decide)),
    if_neg (hne (by decide)), if_pos hgt, hlen]

/-- **The bytes of a character beyond ASCII** are written as they are. -/
theorem writeLoop_utf8 {c : Char} (h : 0x80 ≤ c.toNat) (val : List Byte) :
    jsonPrinterWriteLoop 0 (utf8Char c ++ val) =
      (jsonPrinterWriteLoop 0 val).map (utf8Char c ++ ·) := by
  obtain ⟨lead, tail, hbytes, htail, hlead⟩ := utf8Char_of_le h
  have hlen : 0x80 ≤ lead.toNat ∧ utf8Continuation lead = some tail.length := by
    obtain ⟨h₂, h₃, h₄⟩ := utf8Continuation_eq lead.toNat lead.isLt
    rw [BitVec.ofNat_toNat, BitVec.setWidth_eq] at h₂ h₃ h₄
    rcases hlead with ⟨hl, ht⟩ | ⟨hl, ht⟩ | ⟨hl, ht⟩
    · rw [ht]
      exact h₂ hl
    · rw [ht]
      exact h₃ hl
    · rw [ht]
      exact h₄ hl
  rw [hbytes, List.cons_append, writeLoop_lead hlen.1 _ hlen.2, writeLoop_tail htail,
    Option.map_map]
  rfl

/-- **The byte of an ASCII character.** -/
theorem writeLoop_ascii {c : Char} (h : c.toNat < 0x80) (h0 : c.toNat ≠ 0) (val : List Byte) :
    jsonPrinterWriteLoop 0 (utf8Char c ++ val) =
      (writtenChar c).bind fun out => (jsonPrinterWriteLoop 0 val).map (out ++ ·) := by
  have heq : ∀ k < 0x80, BitVec.ofNat 8 c.toNat = BitVec.ofNat 8 k ↔ c.toNat = k := by
    intro k hk
    rw [← BitVec.toNat_inj, BitVec.toNat_ofNat, BitVec.toNat_ofNat, Nat.mod_eq_of_lt (by omega),
      Nat.mod_eq_of_lt (by omega)]
  have hprint : (0x20#8 ≤ BitVec.ofNat 8 c.toNat ∧ BitVec.ofNat 8 c.toNat < 0x7e#8) ↔
      0x20 ≤ c.toNat ∧ c.toNat < 0x7e := by
    rw [BitVec.le_def, BitVec.lt_def]
    simp only [BitVec.toNat_ofNat]
    rw [Nat.mod_eq_of_lt (show c.toNat < 2 ^ 8 by omega)]
  have hzero : BitVec.ofNat 8 c.toNat ≠ 0 := fun hc => h0 ((heq 0 (by decide)).1 hc)
  have hgt : ¬ BitVec.ofNat 8 c.toNat > 0x7f#8 := by
    rw [gt_iff_lt, BitVec.lt_def]
    simp only [BitVec.toNat_ofNat]
    omega
  rw [utf8Char_ascii h, List.singleton_append, jsonPrinterWriteLoop, if_neg hgt, if_neg hzero,
    writtenChar, utf8Char_ascii h]
  simp (disch := decide) only [heq, hprint]
  by_cases hrange : 0x20 ≤ c.toNat ∧ c.toNat < 0x7e
  · rw [if_pos hrange, escapeLetter_of_le hrange.1]
    by_cases hs : c.toNat = 0x22 ∨ c.toNat = 0x5c ∨ c.toNat = 0x2f
    · rw [if_pos hs, if_pos (show Slashed c from hs), Option.bind_some]
    · rw [if_neg hs, if_neg (show ¬ Slashed c from hs), if_neg (by omega), Option.bind_some]
  · have hs : ¬ Slashed c := by
      unfold Slashed
      omega
    rw [if_neg hrange, if_neg hs, escapeLetter]
    split_ifs
    any_goals rfl
    omega

/-- **Every character but the terminator** is written on its own. -/
theorem writeLoop_char {c : Char} (h0 : c.toNat ≠ 0) (val : List Byte) :
    jsonPrinterWriteLoop 0 (utf8Char c ++ val) =
      (writtenChar c).bind fun out => (jsonPrinterWriteLoop 0 val).map (out ++ ·) := by
  by_cases h : c.toNat < 0x80
  · exact writeLoop_ascii h h0 val
  · have hs : ¬ Slashed c := by
      unfold Slashed
      omega
    rw [writeLoop_utf8 (not_lt.1 h), writtenChar, if_neg hs, escapeLetter_of_le (by omega),
      if_neg (by omega), Option.bind_some]

/-- The bytes of a text between the quotation marks. -/
def writtenChars (cs : List Char) : Option (List Byte) := (cs.mapM writtenChar).map List.flatten

theorem writtenChars_cons (c : Char) (cs : List Char) :
    writtenChars (c :: cs) =
      (writtenChar c).bind fun out => (writtenChars cs).map (out ++ ·) := by
  rw [writtenChars, writtenChars, List.mapM_cons]
  cases writtenChar c with
  | none => rfl
  | some out =>
    cases cs.mapM writtenChar with
    | none => rfl
    | some outs => rfl

/-- A string ends with its last byte, or at a zero. -/
theorem writeLoop_end {rest : List Byte} (h : ∀ b ∈ rest.head?, b = 0) :
    jsonPrinterWriteLoop 0 rest = some [0x22#8] := by
  cases rest with
  | nil => rfl
  | cons b rest => rw [jsonPrinterWriteLoop, if_pos (h b rfl)]

/-- **What is written for a text**, up to its end. -/
theorem jsonPrinterWriteString_eq {cs : List Char} (h0 : ∀ c ∈ cs, c.toNat ≠ 0) {rest : List Byte}
    (hrest : ∀ b ∈ rest.head?, b = 0) : jsonPrinterWriteString (utf8 cs ++ rest) =
      (writtenChars cs).map fun body => 0x22#8 :: body ++ [0x22#8] := by
  have hloop : jsonPrinterWriteLoop 0 (utf8 cs ++ rest) = (writtenChars cs).map (· ++ [0x22#8]) := by
    induction cs with
    | nil => exact writeLoop_end hrest
    | cons c cs ih =>
      rw [List.forall_mem_cons] at h0
      rw [utf8_cons, List.append_assoc, writeLoop_char h0.1, ih h0.2, writtenChars_cons]
      cases writtenChar c with
      | none => rfl
      | some out =>
        cases writtenChars cs with
        | none => rfl
        | some body => simp
  rw [jsonPrinterWriteString, hloop, Option.map_map]
  rfl

/-- What is behind a zero is not written. -/
theorem jsonPrinterWriteString_truncate (val : List Byte) :
    jsonPrinterWriteString (truncate val) = jsonPrinterWriteString val := by
  have hloop : ∀ len val, jsonPrinterWriteLoop len (truncate val) = jsonPrinterWriteLoop len val := by
    intro len val
    induction val generalizing len with
    | nil => rfl
    | cons c val ih =>
      by_cases hc : c = 0
      · rw [hc, truncate, List.takeWhile_cons_of_neg (by simp)]
        cases len <;> simp [jsonPrinterWriteLoop]
      · rw [truncate, List.takeWhile_cons_of_pos (by simpa using hc), ← truncate]
        cases len with
        | zero => simp only [jsonPrinterWriteLoop, ih]
        | succ len => simp only [jsonPrinterWriteLoop, ih]
  rw [jsonPrinterWriteString, jsonPrinterWriteString, hloop]

/-! ## Reading back -/

/-- The characters that are written so that they can be read back. -/
def Readback (c : Char) : Prop :=
  ¬ Slashed c ∧ c.toNat ≠ 0x7e ∧ c.toNat ≠ 0x7f ∧
    (0x20 ≤ c.toNat ∨ c.toNat ∈ [0x08, 0x09, 0x0a, 0x0c, 0x0d])

instance : DecidablePred Readback := fun _ => inferInstanceAs (Decidable (_ ∧ _))

/-- **A character that is written** gets a slash, or it can be read back. -/
theorem writtenChar_cases {c : Char} {out : List Byte} (h : writtenChar c = some out) :
    (Slashed c ∧ out = 0x2f#8 :: utf8Char c) ∨ Readback c := by
  rw [writtenChar] at h
  by_cases hs : Slashed c
  · rw [if_pos hs, Option.some_inj] at h
    exact .inl ⟨hs, h.symm⟩
  · rw [if_neg hs] at h
    refine .inr ⟨hs, ?_⟩
    cases he : escapeLetter c with
    | some e =>
      obtain ⟨-, hmem⟩ := escapeLetter_eq_some he
      refine ⟨?_, ?_, .inr hmem⟩ <;> rintro hc <;> rw [hc] at hmem <;> revert hmem <;> decide
    | none =>
      rw [he] at h
      dsimp only at h
      split_ifs at h with hbad
      omega

/-- **A character that can be read back** is written as JSON has it. -/
theorem writtenChar_readback {c : Char} (h : Readback c) :
    ∃ out, writtenChar c = some out ∧ ∀ {t : List Byte} {cs : List Char},
      JsonChars (out ++ t) cs ↔ ∃ cs', cs = c :: cs' ∧ JsonChars t cs' := by
  obtain ⟨hs, htilde, hdel, hc⟩ := h
  rw [writtenChar, if_neg hs]
  rcases hc with hle | hmem
  · have hbad : ¬ (c.toNat < 0x20 ∨ c.toNat = 0x7e ∨ c.toNat = 0x7f) := by omega
    have hc : Unescaped c := ⟨hle, fun hc => hs (.inl hc), fun hc => hs (.inr (.inl hc))⟩
    rw [escapeLetter_of_le hle]
    refine ⟨utf8Char c, if_neg hbad, fun {t cs} => ⟨JsonChars.unescaped_inv hc, ?_⟩⟩
    rintro ⟨cs', rfl, ht⟩
    exact .unescaped hc ht
  · obtain ⟨e, he⟩ := exists_escapeLetter hmem
    have hesc := (escapeLetter_eq_some he).1
    rw [he]
    refine ⟨_, rfl, fun {t cs} => ⟨JsonChars.escape_inv hesc, ?_⟩⟩
    rintro ⟨cs', rfl, ht⟩
    exact .escape hesc ht

theorem writtenChars_readback : ∀ {cs : List Char}, (∀ c ∈ cs, Readback c) →
    ∃ body, writtenChars cs = some body ∧ JsonChars body cs
  | [], _ => ⟨[], rfl, .nil⟩
  | c :: cs, h => by
    rw [List.forall_mem_cons] at h
    obtain ⟨out, hout, hchars⟩ := writtenChar_readback h.1
    obtain ⟨body, hbody, hcs⟩ := writtenChars_readback h.2
    refine ⟨out ++ body, ?_, hchars.2 ⟨cs, rfl, hcs⟩⟩
    rw [writtenChars_cons, hout, hbody]
    rfl

/-- The slash that is written before a character. -/
theorem jsonChars_slash {t : List Byte} {cs : List Char} (h : JsonChars (0x2f#8 :: t) cs) :
    ∃ cs', cs = '/' :: cs' ∧ JsonChars t cs' := by
  have hslash : utf8Char '/' ++ t = 0x2f#8 :: t := by rw [utf8Char_ascii (by decide)]; rfl
  rw [← hslash] at h
  exact h.unescaped_inv (by unfold Unescaped; decide)

/-- **What is written for a text is read as the text**, or as one that starts with
    it, only if every character can be read back: the slash before a character
    has to be the character, and then the text that is read has a slash too many
    (`n` of them), up to its end. -/
theorem readback_of_jsonChars {tail : List Char} (htail : ∀ c ∈ tail.head?, c ≠ '/') :
    ∀ {cs w : List Char} {body : List Byte} {n : ℕ}, writtenChars cs = some body →
      JsonChars body w → List.replicate n '/' ++ w = cs ++ tail →
      n = 0 ∧ tail = [] ∧ ∀ c ∈ cs, Readback c
  | [], w, body, n, hbody, hread, heq => by
    obtain rfl := Option.some_inj.1 hbody
    obtain rfl := hread.unique .nil
    rw [List.append_nil, List.nil_append] at heq
    cases n with
    | zero => exact ⟨rfl, heq.symm, nofun⟩
    | succ n => exact absurd rfl (htail '/' (by rw [← heq]; rfl))
  | c :: cs, w, body, n, hbody, hread, heq => by
    rw [writtenChars_cons] at hbody
    obtain ⟨out, hout, hbody⟩ := Option.bind_eq_some_iff.1 hbody
    obtain ⟨body, hbody', rfl⟩ := Option.map_eq_some_iff.1 hbody
    rcases writtenChar_cases hout with ⟨-, rfl⟩ | hr
    · -- the slashes that are ahead, and this one
      obtain ⟨w₁, rfl, hread₁⟩ := jsonChars_slash hread
      rw [List.append_cons, ← List.replicate_succ', List.replicate_succ, List.cons_append,
        List.cons_append, List.cons.injEq] at heq
      obtain ⟨rfl, heq⟩ := heq
      rw [utf8Char_ascii (by decide)] at hread₁
      obtain ⟨w₂, rfl, hread₂⟩ := jsonChars_slash hread₁
      rw [List.append_cons, ← List.replicate_succ'] at heq
      exact absurd (readback_of_jsonChars htail hbody' hread₂ heq).1 n.succ_ne_zero
    · obtain ⟨out', hout', hchars⟩ := writtenChar_readback hr
      obtain rfl := Option.some_inj.1 (hout.symm.trans hout')
      obtain ⟨w₁, rfl, hread₁⟩ := hchars.1 hread
      cases n with
      | zero =>
        obtain ⟨-, htail', hall⟩ := readback_of_jsonChars htail hbody' hread₁ (n := 0)
          (List.cons.inj heq).2
        exact ⟨rfl, htail', List.forall_mem_cons.2 ⟨hr, hall⟩⟩
      | succ n =>
        obtain rfl := (List.cons.inj heq).1
        exact absurd (.inr (.inr rfl)) hr.1

/-- **The texts that can be read back** from what is written, for every text that
    a terminator may follow. -/
theorem json_string_round_trip_iff {cs : List Char} (h0 : ∀ c ∈ cs, c.toNat ≠ 0) :
    (∃ text, jsonPrinterWriteString (utf8 cs) = some text ∧ ∀ w, JsonString text w ↔ w = cs) ↔
      ∀ c ∈ cs, Readback c := by
  have hwrite := @jsonPrinterWriteString_eq cs h0 [] nofun
  rw [List.append_nil] at hwrite
  rw [hwrite]
  constructor
  · rintro ⟨text, htext, hread⟩
    obtain ⟨body, hbody, rfl⟩ := Option.map_eq_some_iff.1 htext
    obtain ⟨body', heq, hchars⟩ := (hread cs).2 rfl
    obtain rfl : body = body' := List.append_cancel_right (List.cons.inj heq).2
    exact (@readback_of_jsonChars [] nofun cs cs body 0 hbody hchars (List.append_nil _).symm).2.2
  · intro h
    obtain ⟨body, hbody, hchars⟩ := writtenChars_readback h
    rw [hbody]
    refine ⟨_, rfl, fun w => ⟨fun hw => ?_, ?_⟩⟩
    · exact hw.unique ⟨body, rfl, hchars⟩
    · rintro rfl
      exact ⟨body, rfl, hchars⟩

theorem json_string_round_trip_a :
    ∃ text, jsonPrinterWriteString (utf8 [Char.ofNat 0x61]) = some text ∧
      ∀ w, JsonString text w ↔ w = [Char.ofNat 0x61] := by
  have ha : (Char.ofNat 0x61).toNat = 0x61 := rfl
  refine (json_string_round_trip_iff fun c hc => ?_).2 fun c hc => ?_
  · rw [List.mem_singleton.1 hc, ha]
    decide
  · rw [List.mem_singleton.1 hc, Readback, Slashed, ha]
    decide

/-- A slash is doubled, and a tilde ends the program. -/
theorem not_json_string_round_trip :
    (¬ ∃ text, jsonPrinterWriteString (utf8 [Char.ofNat 0x2f]) = some text ∧
      ∀ w, JsonString text w ↔ w = [Char.ofNat 0x2f]) ∧
    jsonPrinterWriteString (utf8 [Char.ofNat 0x7e]) = none := by
  refine ⟨?_, by decide⟩
  rintro ⟨text, htext, hread⟩
  obtain rfl : [0x22#8, 0x2f#8, 0x2f#8, 0x22#8] = text := Option.some_inj.1 htext
  obtain ⟨body, heq, hchars⟩ := (hread _).2 rfl
  obtain rfl : [0x2f#8, 0x2f#8] = body := List.append_cancel_right (List.cons.inj heq).2
  obtain ⟨cs, hcs, hchars⟩ := jsonChars_slash hchars
  obtain rfl := (List.cons.inj hcs).2
  obtain ⟨cs, hcs, -⟩ := jsonChars_slash hchars
  cases hcs

/-! ## What a reader gets -/

/-- A JSON reader gets `text` from the literal that is written for `val`. -/
def ReadBackAs (val text : List Byte) : Prop :=
  ∃ literal, jsonPrinterWriteString val = some literal ∧ ∃ cs, JsonString literal cs ∧ utf8 cs = text

/-- A text of characters that can be read back. -/
def ReadableText (text : List Byte) : Prop := ∃ cs, text = utf8 cs ∧ ∀ c ∈ cs, Readback c

theorem readableText_utf8_iff {cs : List Char} : ReadableText (utf8 cs) ↔ ∀ c ∈ cs, Readback c := by
  constructor
  · rintro ⟨cs', heq, h⟩
    rwa [utf8_injective heq]
  · exact fun h => ⟨cs, rfl, h⟩

theorem Readback.ne_zero {c : Char} (h : Readback c) : c.toNat ≠ 0 := by
  obtain ⟨-, -, -, hle | hmem⟩ := h
  · omega
  · intro hc
    rw [hc] at hmem
    exact absurd hmem (by decide)

/-- A text up to its first zero, and from there. -/
theorem exists_terminated (cs : List Char) : ∃ start tail, cs = start ++ tail ∧
    (∀ c ∈ start, c.toNat ≠ 0) ∧ ∀ c ∈ tail.head?, c.toNat = 0 := by
  refine ⟨cs.takeWhile fun c => c.toNat ≠ 0, cs.dropWhile fun c => c.toNat ≠ 0,
    List.takeWhile_append_dropWhile.symm, fun c hc => by simpa using List.mem_takeWhile_imp hc,
    fun c hc => ?_⟩
  have hnot := List.head?_dropWhile_not (fun c : Char => decide (c.toNat ≠ 0)) cs
  rw [Option.mem_def.1 hc] at hnot
  simpa using hnot

/-- The bytes of a text that starts with a zero. -/
theorem utf8_head?_eq_zero {cs : List Char} (h : ∀ c ∈ cs.head?, c.toNat = 0) :
    ∀ b ∈ (utf8 cs).head?, b = 0 := by
  cases cs with
  | nil => exact nofun
  | cons c cs =>
    have hc : c.toNat = 0 := h c rfl
    rw [utf8_cons, utf8Char_ascii (by omega), hc]
    rintro b ⟨⟩
    rfl

/-- **A text is read as itself** exactly if all of its characters can be read
    back, whatever its bytes are. -/
theorem readBackAs_self_iff {text : List Byte} : ReadBackAs text text ↔ ReadableText text := by
  constructor
  · rintro ⟨literal, hwrite, cs, ⟨body', rfl, hread⟩, rfl⟩
    -- what is written ends at the first zero
    obtain ⟨start, tail, rfl, hstart, htail⟩ := exists_terminated cs
    rw [utf8, List.flatMap_append, ← utf8, ← utf8,
      jsonPrinterWriteString_eq hstart (utf8_head?_eq_zero htail)] at hwrite
    obtain ⟨body, hbody, heq⟩ := Option.map_eq_some_iff.1 hwrite
    obtain rfl : body = body' := List.append_cancel_right (List.cons.inj heq).2
    have hslash : ∀ c ∈ tail.head?, c ≠ '/' := by
      rintro c hc rfl
      exact absurd (htail _ hc) (by decide)
    obtain ⟨-, rfl, hall⟩ := @readback_of_jsonChars tail hslash start _ body 0 hbody hread rfl
    exact ⟨start, by rw [List.append_nil], hall⟩
  · rintro ⟨cs, rfl, h⟩
    obtain ⟨body, hbody, hchars⟩ := writtenChars_readback h
    have hwrite := @jsonPrinterWriteString_eq cs (fun c hc => (h c hc).ne_zero) [] nofun
    rw [List.append_nil, hbody] at hwrite
    exact ⟨_, hwrite, cs, ⟨body, rfl, hchars⟩, rfl⟩

theorem readBackAs_truncate_iff {text : List Byte} :
    ReadBackAs (truncate text) text ↔ ReadableText text := by
  rw [ReadBackAs, jsonPrinterWriteString_truncate]
  exact readBackAs_self_iff

/-! ## The calls of the printer -/

/-- The strings that a call writes. -/
def JsonPrinterCall.strings : JsonPrinterCall → List (List Byte)
  | string val => [val]
  | objectKey key | objectPairUint32 key _ | objectPairUint64 key _ | objectPairBoolean key _ => [key]
  | objectPairString key val => [key, val]
  | uint32 _ | uint64 _ | boolean _ | arrayBegin | arrayEnd | objectBegin | objectEnd => []

/-- The program does not die in a call. -/
def JsonPrinterCall.Written (c : JsonPrinterCall) : Prop :=
  ∀ val ∈ c.strings, (jsonPrinterWriteString val).isSome

instance : DecidablePred JsonPrinterCall.Written := fun c =>
  inferInstanceAs (Decidable (∀ val ∈ c.strings, (jsonPrinterWriteString val).isSome))

section Written

variable {c : JsonPrinterCall} {key : List Byte}

/-- A call without strings. -/
theorem JsonPrinterCall.Written.of_nil (h : c.strings = []) : c.Written := by
  rw [JsonPrinterCall.Written, h]
  exact nofun

/-- A call with one string. -/
theorem JsonPrinterCall.written_iff (h : c.strings = [key]) :
    c.Written ↔ (jsonPrinterWriteString key).isSome := by
  rw [JsonPrinterCall.Written, h, List.forall_mem_singleton]

theorem JsonPrinterCall.Written.pair {val : List Byte} (hkey : (jsonPrinterWriteString key).isSome)
    (hval : (jsonPrinterWriteString val).isSome) : (objectPairString key val).Written :=
  List.forall_mem_cons.2 ⟨hkey, List.forall_mem_singleton.2 hval⟩

end Written

theorem writtenChars_isSome_iff : ∀ {cs : List Char},
    (writtenChars cs).isSome ↔ ∀ c ∈ cs, Slashed c ∨ Readback c
  | [] => iff_of_true rfl nofun
  | c :: cs => by
    have hchar : (writtenChar c).isSome ↔ Slashed c ∨ Readback c := by
      constructor
      · intro h
        obtain ⟨out, hout⟩ := Option.isSome_iff_exists.1 h
        exact (writtenChar_cases hout).imp_left And.left
      · rintro (hs | hr)
        · rw [writtenChar, if_pos hs]
          rfl
        · obtain ⟨out, hout, -⟩ := writtenChar_readback hr
          rw [hout]
          rfl
    rw [List.forall_mem_cons, ← hchar, ← writtenChars_isSome_iff, writtenChars_cons]
    cases writtenChar c <;> simp

/-- **The texts on which the program does not die.** -/
theorem jsonPrinterWriteString_isSome_iff {cs : List Char} (h0 : ∀ c ∈ cs, c.toNat ≠ 0) :
    (jsonPrinterWriteString (utf8 cs)).isSome ↔ ∀ c ∈ cs, Slashed c ∨ Readback c := by
  have hwrite := @jsonPrinterWriteString_eq cs h0 [] nofun
  rw [List.append_nil] at hwrite
  rw [hwrite, Option.isSome_map, writtenChars_isSome_iff]

theorem ReadBackAs.isSome {val text : List Byte} (h : ReadBackAs val text) :
    (jsonPrinterWriteString val).isSome := by
  obtain ⟨literal, hwrite, -⟩ := h
  rw [hwrite]
  rfl

/-- A string of printable characters, as numbers are printed. -/
def PlainText (val : List Byte) : Prop := ∀ b ∈ val, 0x20#8 ≤ b ∧ b < 0x7e#8

theorem PlainText.isSome {val : List Byte} (h : PlainText val) :
    (jsonPrinterWriteString val).isSome := by
  rw [jsonPrinterWriteString, Option.isSome_map]
  induction val with
  | nil => rfl
  | cons b val ih =>
    obtain ⟨hb, hval⟩ := List.forall_mem_cons.1 h
    rw [jsonPrinterWriteLoop]
    split_ifs
    · rfl
    all_goals exact (Option.isSome_map ..).trans (ih hval)

end Honas

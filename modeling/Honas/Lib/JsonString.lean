/-
  UTF-8 text and the string literals of JSON (RFC 8259, section 7).

  A JSON string is a sequence of Unicode characters; a literal writes each of
  them unescaped, in UTF-8, or as an escape of two, six or twelve bytes.
  `JsonString` relates a literal to the characters it stands for.  It is a
  partial function of the literal (`JsonString.unique`).
-/
import Honas.Lib.Hex

open Bits

/-! ## UTF-8 -/

/-- The bytes of a character. -/
def utf8Char (c : Char) : List Byte := (String.utf8EncodeChar c).map UInt8.toBitVec

/-- The bytes of a text. -/
def utf8 (cs : List Char) : List Byte := cs.flatMap utf8Char

@[simp] theorem utf8_nil : utf8 [] = [] := rfl

@[simp] theorem utf8_cons (c : Char) (cs : List Char) : utf8 (c :: cs) = utf8Char c ++ utf8 cs :=
  List.flatMap_cons

/-- The bytes of a character below 0x80. -/
theorem utf8Char_ascii {c : Char} (h : c.toNat < 0x80) : utf8Char c = [BitVec.ofNat 8 c.toNat] := by
  have hle : c.val.toNat ≤ 0x7f := Nat.le_of_lt_succ h
  rw [utf8Char, String.utf8EncodeChar]
  simp only [if_pos hle]
  rfl

/-- A byte that continues a character. -/
def IsTail (b : Byte) : Prop := b &&& 0xc0#8 = 0x80#8

/-- The bytes of other characters: a first byte that gives their number, and
    bytes that continue it. -/
theorem utf8Char_of_le {c : Char} (h : 0x80 ≤ c.toNat) : ∃ lead tail, utf8Char c = lead :: tail ∧
    (∀ b ∈ tail, IsTail b) ∧
    ((lead &&& 0xe0#8 = 0xc0#8 ∧ tail.length = 1) ∨ (lead &&& 0xf0#8 = 0xe0#8 ∧ tail.length = 2) ∨
      (lead &&& 0xf8#8 = 0xf0#8 ∧ tail.length = 3)) := by
  have htail : ∀ v : ℕ, IsTail (UInt8.ofNat (v % 64 + 0x80)).toBitVec := by
    intro v
    have hall : ∀ k < 64, IsTail (UInt8.ofNat (k + 0x80)).toBitVec := by
      unfold IsTail
      decide
    exact hall _ (Nat.mod_lt _ (by decide))
  have hlead₂ : ∀ k < 0x20, (UInt8.ofNat (k + 0xc0)).toBitVec &&& 0xe0#8 = 0xc0#8 := by decide
  have hlead₃ : ∀ k < 0x10, (UInt8.ofNat (k + 0xe0)).toBitVec &&& 0xf0#8 = 0xe0#8 := by decide
  have hlead₄ : ∀ k < 0x08, (UInt8.ofNat (k + 0xf0)).toBitVec &&& 0xf8#8 = 0xf0#8 := by decide
  have hgt : ¬ c.val.toNat ≤ 0x7f := Nat.not_le.2 h
  rw [utf8Char, String.utf8EncodeChar]
  simp only [if_neg hgt]
  split_ifs
  · refine ⟨_, _, rfl, ?_, .inl ⟨hlead₂ _ (Nat.mod_lt _ (by decide)), rfl⟩⟩
    simp only [List.map_cons, List.map_nil, List.forall_mem_cons]
    exact ⟨htail _, nofun⟩
  · refine ⟨_, _, rfl, ?_, .inr (.inl ⟨hlead₃ _ (Nat.mod_lt _ (by decide)), rfl⟩)⟩
    simp only [List.map_cons, List.map_nil, List.forall_mem_cons]
    exact ⟨htail _, htail _, nofun⟩
  · refine ⟨_, _, rfl, ?_, .inr (.inr ⟨hlead₄ _ (Nat.mod_lt _ (by decide)), rfl⟩)⟩
    simp only [List.map_cons, List.map_nil, List.forall_mem_cons]
    exact ⟨htail _, htail _, htail _, nofun⟩

/-- **A character can be read back** from the start of a text. -/
theorem utf8Char_append_inj {c d : Char} {t t' : List Byte}
    (h : utf8Char c ++ t = utf8Char d ++ t') : c = d ∧ t = t' := by
  have hbytes : String.utf8EncodeChar c ++ t.map UInt8.ofBitVec =
      String.utf8EncodeChar d ++ t'.map UInt8.ofBitVec := by
    have := congrArg (List.map UInt8.ofBitVec) h
    simpa [utf8Char, Function.comp_def] using this
  have harray := congrArg List.toByteArray hbytes
  rw [List.toByteArray_append, List.toByteArray_append] at harray
  have hc : c = d := by
    have hread := congrArg (fun b => ByteArray.utf8DecodeChar? b 0) harray
    simpa only [ByteArray.utf8DecodeChar?_utf8EncodeChar_append, Option.some_inj] using hread
  subst hc
  exact ⟨rfl, List.append_cancel_left h⟩

/-! ## String literals -/

/-- A character that may stand for itself. -/
def Unescaped (c : Char) : Prop := 0x20 ≤ c.toNat ∧ c.toNat ≠ 0x22 ∧ c.toNat ≠ 0x5c

/-- The escapes of two bytes: the byte behind the backslash, and the character. -/
def JsonEscape (e : Byte) (c : Char) : Prop :=
  (e.toNat, c.toNat) ∈ [(0x22, 0x22), (0x5c, 0x5c), (0x2f, 0x2f), (0x62, 0x08), (0x66, 0x0c),
    (0x6e, 0x0a), (0x72, 0x0d), (0x74, 0x09)]

/-- The four digits of a code unit. -/
inductive JsonUnit : List Byte → ℕ → Prop where
  | mk {b₁ b₂ b₃ b₄ : Byte} {n₁ n₂ n₃ n₄ : ℕ} (h₁ : HexDigit b₁ n₁) (h₂ : HexDigit b₂ n₂)
    (h₃ : HexDigit b₃ n₃) (h₄ : HexDigit b₄ n₄) :
    JsonUnit [b₁, b₂, b₃, b₄] (((n₁ * 16 + n₂) * 16 + n₃) * 16 + n₄)

/-- What stands between the quotation marks of a literal, and the characters. -/
inductive JsonChars : List Byte → List Char → Prop where
  | nil : JsonChars [] []
  | unescaped {c : Char} {t : List Byte} {cs : List Char} (hc : Unescaped c) (h : JsonChars t cs) :
    JsonChars (utf8Char c ++ t) (c :: cs)
  | escape {e : Byte} {c : Char} {t : List Byte} {cs : List Char} (he : JsonEscape e c)
    (h : JsonChars t cs) : JsonChars (0x5c#8 :: e :: t) (c :: cs)
  | unit {d t : List Byte} {c : Char} {cs : List Char} (hd : JsonUnit d c.toNat)
    (h : JsonChars t cs) : JsonChars (0x5c#8 :: 0x75#8 :: (d ++ t)) (c :: cs)
  | surrogates {d d' t : List Byte} {n n' : ℕ} {c : Char} {cs : List Char} (hd : JsonUnit d n)
    (hd' : JsonUnit d' n') (hn : 0xd800 ≤ n ∧ n < 0xdc00) (hn' : 0xdc00 ≤ n' ∧ n' < 0xe000)
    (hc : c.toNat = 0x10000 + (n - 0xd800) * 0x400 + (n' - 0xdc00)) (h : JsonChars t cs) :
    JsonChars (0x5c#8 :: 0x75#8 :: (d ++ 0x5c#8 :: 0x75#8 :: (d' ++ t))) (c :: cs)

/-- A string literal, and the characters it stands for. -/
def JsonString (text : List Byte) (cs : List Char) : Prop :=
  ∃ body, text = 0x22#8 :: body ++ [0x22#8] ∧ JsonChars body cs

theorem JsonUnit.length {d : List Byte} {n : ℕ} (h : JsonUnit d n) : d.length = 4 := by
  cases h
  rfl

theorem JsonUnit.unique {d : List Byte} {n m : ℕ} (h : JsonUnit d n) (h' : JsonUnit d m) :
    n = m := by
  cases h with
  | mk h₁ h₂ h₃ h₄ =>
    cases h' with
    | mk h₁' h₂' h₃' h₄' =>
      rw [h₁.unique h₁', h₂.unique h₂', h₃.unique h₃', h₄.unique h₄']

/-- Two code units can be told apart from what follows. -/
theorem JsonUnit.append_inj {d d' t t' : List Byte} {n m : ℕ} (h : JsonUnit d n)
    (h' : JsonUnit d' m) (heq : d ++ t = d' ++ t') : n = m ∧ t = t' := by
  obtain ⟨rfl, rfl⟩ := List.append_inj heq (h.length.trans h'.length.symm)
  exact ⟨h.unique h', rfl⟩

theorem JsonEscape.unique {e : Byte} {c c' : Char} (h : JsonEscape e c) (h' : JsonEscape e c') :
    c = c' := by
  refine Char.toNat_inj.1 ?_
  simp only [JsonEscape, List.mem_cons, List.not_mem_nil, or_false, Prod.mk.injEq] at h h'
  omega

/-- The letter of a code unit is no escape of two bytes. -/
theorem not_jsonEscape_unit {c : Char} : ¬ JsonEscape 0x75#8 c := by
  simp [JsonEscape]

theorem utf8Char_ne_nil (c : Char) (t : List Byte) : utf8Char c ++ t ≠ [] := by
  intro h
  have hsize := congrArg List.length (List.append_eq_nil_iff.1 h).1
  rw [utf8Char, List.length_map, String.length_utf8EncodeChar] at hsize
  exact absurd hsize c.utf8Size_pos.ne'

/-- **A text can be read back** from its bytes. -/
theorem utf8_injective : Function.Injective utf8 := by
  intro cs
  induction cs with
  | nil =>
    rintro (_ | ⟨c, cs⟩) h
    · rfl
    · exact absurd h.symm (utf8Char_ne_nil c (utf8 cs))
  | cons c cs ih =>
    rintro (_ | ⟨d, ds⟩) h
    · exact absurd h (utf8Char_ne_nil c (utf8 cs))
    · obtain ⟨rfl, htail⟩ := utf8Char_append_inj h
      rw [ih htail]

/-- A surrogate is no character. -/
theorem toNat_ne_surrogate {c : Char} {n : ℕ} (hn : 0xd800 ≤ n) (hn' : n < 0xe000) :
    c.toNat ≠ n := by
  have h : c.toNat < 0xd800 ∨ 0xdfff < c.toNat ∧ c.toNat < 0x110000 := c.valid
  omega

/-- No character that stands for itself starts with a backslash. -/
theorem Unescaped.ne_backslash {c : Char} (hc : Unescaped c) {t t' : List Byte} :
    utf8Char c ++ t ≠ 0x5c#8 :: t' := by
  intro h
  obtain ⟨-, -, hne⟩ := hc
  by_cases hlt : c.toNat < 0x80
  · rw [utf8Char_ascii hlt, List.singleton_append, List.cons.injEq] at h
    have hc := congrArg BitVec.toNat h.1
    rw [BitVec.toNat_ofNat, Nat.mod_eq_of_lt (by omega)] at hc
    exact hne hc
  · obtain ⟨lead, tail, hbytes, -, hlead⟩ := utf8Char_of_le (not_lt.1 hlt)
    rw [hbytes, List.cons_append, List.cons.injEq] at h
    rw [h.1] at hlead
    revert hlead
    simp

/-- A text that starts with an unescaped character. -/
theorem JsonChars.unescaped_inv {c : Char} {t : List Byte} {cs : List Char} (hc : Unescaped c)
    (h : JsonChars (utf8Char c ++ t) cs) : ∃ cs', cs = c :: cs' ∧ JsonChars t cs' := by
  generalize hs : utf8Char c ++ t = s at h
  cases h with
  | nil => exact absurd hs (utf8Char_ne_nil c t)
  | @unescaped d t' cs' hd h =>
    obtain ⟨rfl, rfl⟩ := utf8Char_append_inj hs
    exact ⟨cs', rfl, h⟩
  | escape | unit | surrogates => exact absurd hs hc.ne_backslash

/-- A text that starts with an escape of two bytes. -/
theorem JsonChars.escape_inv {e : Byte} {c : Char} {t : List Byte} {cs : List Char}
    (he : JsonEscape e c) (h : JsonChars (0x5c#8 :: e :: t) cs) :
    ∃ cs', cs = c :: cs' ∧ JsonChars t cs' := by
  generalize hs : 0x5c#8 :: e :: t = s at h
  cases h with
  | nil => cases hs
  | unescaped hd => exact absurd hs.symm hd.ne_backslash
  | @escape e' c' t' cs' he' h =>
    simp only [List.cons.injEq, true_and] at hs
    obtain ⟨rfl, rfl⟩ := hs
    exact ⟨cs', by rw [he.unique he'], h⟩
  | unit | surrogates =>
    simp only [List.cons.injEq, true_and] at hs
    rw [hs.1] at he
    exact absurd he not_jsonEscape_unit

/-- A text that starts with a code unit: it is a character, or the first of two
    surrogates. -/
theorem JsonChars.unit_inv {d t : List Byte} {n : ℕ} {cs : List Char} (hd : JsonUnit d n)
    (h : JsonChars (0x5c#8 :: 0x75#8 :: (d ++ t)) cs) :
    (∃ c cs', cs = c :: cs' ∧ c.toNat = n ∧ JsonChars t cs') ∨
      ∃ d' t' n' c cs', cs = c :: cs' ∧ t = 0x5c#8 :: 0x75#8 :: (d' ++ t') ∧ JsonUnit d' n' ∧
        (0xd800 ≤ n ∧ n < 0xdc00) ∧
        c.toNat = 0x10000 + (n - 0xd800) * 0x400 + (n' - 0xdc00) ∧ JsonChars t' cs' := by
  generalize hs : 0x5c#8 :: 0x75#8 :: (d ++ t) = s at h
  cases h with
  | nil => cases hs
  | unescaped hc => exact absurd hs.symm hc.ne_backslash
  | escape he =>
    simp only [List.cons.injEq, true_and] at hs
    rw [← hs.1] at he
    exact absurd he not_jsonEscape_unit
  | @unit d' t' c cs' hd' h =>
    simp only [List.cons.injEq, true_and] at hs
    obtain ⟨hn, rfl⟩ := hd.append_inj hd' hs
    exact .inl ⟨c, cs', rfl, hn.symm, h⟩
  | @surrogates d₁ d₂ t' n₁ n₂ c cs' hd₁ hd₂ hn₁ hn₂ hc h =>
    simp only [List.cons.injEq, true_and] at hs
    obtain ⟨rfl, rfl⟩ := hd.append_inj hd₁ hs
    exact .inr ⟨d₂, t', n₂, c, cs', rfl, rfl, hd₂, hn₁, hc, h⟩

/-- **A text has at most one value.** -/
theorem JsonChars.unique {t : List Byte} {cs cs' : List Char} (h : JsonChars t cs)
    (h' : JsonChars t cs') : cs = cs' := by
  induction h generalizing cs' with
  | nil =>
    generalize hs : ([] : List Byte) = s at h'
    cases h' with
    | nil => rfl
    | unescaped => exact absurd hs.symm (utf8Char_ne_nil _ _)
    | escape | unit | surrogates => cases hs
  | unescaped hc _ ih =>
    obtain ⟨cs₁, rfl, h₁⟩ := h'.unescaped_inv hc
    rw [ih h₁]
  | escape he _ ih =>
    obtain ⟨cs₁, rfl, h₁⟩ := h'.escape_inv he
    rw [ih h₁]
  | unit hd _ ih =>
    obtain ⟨c, cs₁, rfl, hc, h₁⟩ | ⟨_, _, _, _, _, -, -, -, ⟨hlow, hhigh⟩, -⟩ := h'.unit_inv hd
    · rw [Char.toNat_inj.1 hc, ih h₁]
    · exact absurd rfl (toNat_ne_surrogate hlow (by omega))
  | surrogates hd hd' hn hn' hc _ ih =>
    obtain ⟨_, _, -, hc', -⟩ | ⟨d₂, t₂, n₂, c, cs₁, rfl, ht, hd₂, -, hc', h₁⟩ := h'.unit_inv hd
    · exact absurd hc' (toNat_ne_surrogate hn.1 (by omega))
    · simp only [List.cons.injEq, true_and] at ht
      obtain ⟨rfl, rfl⟩ := hd'.append_inj hd₂ ht
      rw [Char.toNat_inj.1 (hc.trans hc'.symm), ih h₁]

/-- **A literal stands for at most one sequence of characters.** -/
theorem JsonString.unique {text : List Byte} {cs cs' : List Char} (h : JsonString text cs)
    (h' : JsonString text cs') : cs = cs' := by
  obtain ⟨body, rfl, h⟩ := h
  obtain ⟨body', heq, h'⟩ := h'
  rw [List.append_cancel_right (List.cons.inj heq).2] at h
  exact h.unique h'

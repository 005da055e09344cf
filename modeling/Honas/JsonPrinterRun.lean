/-
  The JSON printer at work (`src/json_printer.c`), with its runtime checks.

  The printer keeps no tree: a stack of the brackets that are open, and one flag
  that says whether a separator is needed.  Each of its functions is given with
  its assertions; what it writes is a sequence of tokens, in which a string is
  one token.  A run from `json_printer_begin` to `json_printer_end` in which no
  assertion fails follows the positions of a document, so it prints one.
-/
import Honas.Lib.Document
import Honas.JsonPrinter

namespace Honas

open Bits Document

/-- What is printed without brackets. -/
inductive JsonAtom where
  | number (val : ℕ)
  | boolean (val : Bool)
  | string (val : List Byte)
deriving DecidableEq

/-- What the printer writes. -/
abbrev JsonToken := DocumentToken JsonAtom

/-- The entries of `json_printer_t.stack`: 0, `]`, `}` and `:`. -/
inductive JsonPrinterLevel where
  | sentinel
  | array
  | object
  | key
deriving DecidableEq

/-- `JSON_PRINTER_MAX_DEPTH`. -/
def jsonPrinterMaxDepth : ℕ := 31

/-- `json_printer_t`; `stack` holds the entries up to `depth`, the last one
    first. -/
structure JsonPrinter where
  out : List JsonToken
  firstElement : Bool
  stack : List JsonPrinterLevel
deriving DecidableEq

namespace JsonPrinter

/-! ## The functions of the printer -/

/-- `json_printer_t.depth`. -/
def depth (ctx : JsonPrinter) : ℕ := ctx.stack.length

/-- Write some tokens. -/
def write (ctx : JsonPrinter) (tokens : List JsonToken) : JsonPrinter :=
  { ctx with out := ctx.out ++ tokens }

/-- `json_printer_stack_push` and `json_printer_stack_push_opt`. -/
def stackPush (ctx : JsonPrinter) (v : JsonPrinterLevel) : Option JsonPrinter :=
  if ctx.depth < jsonPrinterMaxDepth then
    some { ctx with stack := v :: ctx.stack, firstElement := true }
  else none

/-- `json_printer_stack_assert`. -/
def stackAssert (ctx : JsonPrinter) (v : JsonPrinterLevel) : Option JsonPrinter :=
  if ctx.stack.head? = some v then some ctx else none

/-- `json_printer_stack_pop`. -/
def stackPop (ctx : JsonPrinter) (v : JsonPrinterLevel) : Option JsonPrinter := do
  let ctx ← ctx.stackAssert v
  some { ctx with stack := ctx.stack.tail, firstElement := ctx.stack.tail.length == 1 }

/-- `json_printer_stack_pop_opt`. -/
def stackPopOpt (ctx : JsonPrinter) (v : JsonPrinterLevel) : JsonPrinter :=
  if ctx.stack.head? = some v then { ctx with stack := ctx.stack.tail } else ctx

/-- `json_printer_stack_assert_expect_value`. -/
def stackAssertExpectValue (ctx : JsonPrinter) : Option JsonPrinter :=
  match ctx.stack.head? with
  | some .array | some .key | some .sentinel => some ctx
  | _ => none

/-- `json_printer_optional_separator`. -/
def optionalSeparator (ctx : JsonPrinter) : JsonPrinter :=
  if ctx.firstElement then { ctx with firstElement := false } else ctx.write [.comma]

/-- How the functions that print a value start. -/
def beginValue (ctx : JsonPrinter) : Option JsonPrinter := do
  let ctx ← ctx.stackAssertExpectValue
  some (ctx.optionalSeparator.stackPopOpt .key)

/-- `json_printer_uint32`, `json_printer_uint64`, `json_printer_boolean` and
    `json_printer_string`. -/
def value (ctx : JsonPrinter) (val : JsonAtom) : Option JsonPrinter := do
  let ctx ← ctx.beginValue
  some (ctx.write [.atom val])

/-- `json_printer_array_begin`. -/
def arrayBegin (ctx : JsonPrinter) : Option JsonPrinter := do
  let ctx ← ctx.beginValue
  (ctx.write [.leftBracket]).stackPush .array

/-- `json_printer_array_end`. -/
def arrayEnd (ctx : JsonPrinter) : Option JsonPrinter :=
  (ctx.write [.rightBracket]).stackPop .array

/-- `json_printer_object_begin`. -/
def objectBegin (ctx : JsonPrinter) : Option JsonPrinter := do
  let ctx ← ctx.beginValue
  (ctx.write [.leftBrace]).stackPush .object

/-- `json_printer_object_key`. -/
def objectKey (ctx : JsonPrinter) (key : List Byte) : Option JsonPrinter := do
  let ctx ← ctx.stackAssert .object
  let ctx ← ctx.optionalSeparator.stackPush .key
  some (ctx.write [.atom (.string key), .colon])

/-- `json_printer_object_pair_uint32` and its siblings. -/
def objectPair (ctx : JsonPrinter) (key : List Byte) (val : JsonAtom) : Option JsonPrinter := do
  let ctx ← ctx.stackAssert .object
  some (ctx.optionalSeparator.write [.atom (.string key), .colon, .atom val])

/-- `json_printer_object_end`. -/
def objectEnd (ctx : JsonPrinter) : Option JsonPrinter :=
  (ctx.write [.rightBrace]).stackPop .object

/-- Call a function of the printer. -/
def call (ctx : JsonPrinter) : JsonPrinterCall → Option JsonPrinter
  | .uint32 val => ctx.value (.number val)
  | .uint64 val => ctx.value (.number val)
  | .boolean val => ctx.value (.boolean val)
  | .string val => ctx.value (.string val)
  | .arrayBegin => ctx.arrayBegin
  | .arrayEnd => ctx.arrayEnd
  | .objectBegin => ctx.objectBegin
  | .objectKey key => ctx.objectKey key
  | .objectPairUint32 key val => ctx.objectPair key (.number val)
  | .objectPairUint64 key val => ctx.objectPair key (.number val)
  | .objectPairBoolean key val => ctx.objectPair key (.boolean val)
  | .objectPairString key val => ctx.objectPair key (.string val)
  | .objectEnd => ctx.objectEnd

end JsonPrinter

/-- `json_printer_begin`. -/
def jsonPrinterBegin : Option JsonPrinter := JsonPrinter.stackPush ⟨[], true, []⟩ .sentinel

/-- `json_printer_end`. -/
def jsonPrinterEnd (ctx : JsonPrinter) : Option JsonPrinter := ctx.stackAssert .sentinel

/-- The printer after `json_printer_begin` and some calls. -/
def jsonPrinterCalls (calls : List JsonPrinterCall) : Option JsonPrinter := do
  let ctx ← jsonPrinterBegin
  calls.foldlM JsonPrinter.call ctx

/-- What is written from `json_printer_begin` to `json_printer_end`, when no
    assertion fails. -/
def jsonPrinterRun (calls : List JsonPrinterCall) : Option (List JsonToken) := do
  let ctx ← jsonPrinterCalls calls
  let ctx ← jsonPrinterEnd ctx
  some ctx.out

/-! ## What calls describe -/

namespace JsonPrinterCall

/-- The key and the value of a call that prints both. -/
def pair? : JsonPrinterCall → Option (List Byte × JsonPrinterCall)
  | objectPairUint32 key val => some (key, uint32 val)
  | objectPairUint64 key val => some (key, uint64 val)
  | objectPairBoolean key val => some (key, boolean val)
  | objectPairString key val => some (key, string val)
  | _ => none

/-- The events of a call. -/
def events : JsonPrinterCall → List (DocumentEvent (List Byte) JsonAtom)
  | uint32 val => [.leaf (.number val)]
  | uint64 val => [.leaf (.number val)]
  | boolean val => [.leaf (.boolean val)]
  | string val => [.leaf (.string val)]
  | arrayBegin => [.arrayBegin]
  | arrayEnd => [.arrayEnd]
  | objectBegin => [.objectBegin]
  | objectKey key => [.key key]
  | objectPairUint32 key val => [.key key, .leaf (.number val)]
  | objectPairUint64 key val => [.key key, .leaf (.number val)]
  | objectPairBoolean key val => [.key key, .leaf (.boolean val)]
  | objectPairString key val => [.key key, .leaf (.string val)]
  | objectEnd => [.objectEnd]

/-- The number of brackets that are open after a call. -/
def nesting (n : ℕ) : JsonPrinterCall → ℕ
  | arrayBegin | objectBegin => n + 1
  | arrayEnd | objectEnd => n - 1
  | _ => n

end JsonPrinterCall

/-- What the printer prints. -/
abbrev PrintedDocument := Document (List Byte) JsonAtom

/-- The text of a document. -/
def PrintedDocument.text (v : PrintedDocument) : List JsonToken := v.tokens .string

/-- The calls describe a document: a pair stands for its key and its value. -/
def Describes (calls : List JsonPrinterCall) (v : PrintedDocument) : Prop :=
  calls.flatMap JsonPrinterCall.events = v.events

/-- The calls describe some members of an object. -/
def DescribesMembers (calls : List JsonPrinterCall) : Prop :=
  ∃ members : List (List Byte × PrintedDocument),
    calls.flatMap JsonPrinterCall.events = membersEvents members

/-- The calls describe some elements of an array. -/
def DescribesElems (calls : List JsonPrinterCall) : Prop :=
  ∃ elems : List PrintedDocument, calls.flatMap JsonPrinterCall.events = elemsEvents elems

namespace DescribesMembers

variable {calls calls' : List JsonPrinterCall}

theorem nil : DescribesMembers [] := ⟨[], rfl⟩

theorem append (h : DescribesMembers calls) (h' : DescribesMembers calls') :
    DescribesMembers (calls ++ calls') := by
  obtain ⟨members, h⟩ := h
  obtain ⟨members', h'⟩ := h'
  exact ⟨members ++ members', by rw [List.flatMap_append, h, h', membersEvents_append]⟩

theorem flatMap {α : Type*} {f : α → List JsonPrinterCall} : ∀ {l : List α},
    (∀ a ∈ l, DescribesMembers (f a)) → DescribesMembers (l.flatMap f)
  | [], _ => nil
  | a :: _, h => (h a List.mem_cons_self).append (flatMap fun b hb => h b (List.mem_cons_of_mem a hb))

theorem pair {c value : JsonPrinterCall} {key : List Byte} (hc : c.pair? = some (key, value))
    (h : DescribesMembers calls) : DescribesMembers (c :: calls) := by
  have hone : DescribesMembers [c] := by
    cases c <;> cases hc
    · exact ⟨[(key, .leaf (.number _))], rfl⟩
    · exact ⟨[(key, .leaf (.number _))], rfl⟩
    · exact ⟨[(key, .leaf (.boolean _))], rfl⟩
    · exact ⟨[(key, .leaf (.string _))], rfl⟩
  exact hone.append h

theorem object (key : List Byte) (h : DescribesMembers calls) :
    DescribesMembers (.objectKey key :: .objectBegin :: calls ++ [.objectEnd]) := by
  obtain ⟨members, h⟩ := h
  refine ⟨[(key, .object members)], ?_⟩
  simp [membersEvents, Document.events, JsonPrinterCall.events, h]

theorem array (key : List Byte) (h : DescribesElems calls) :
    DescribesMembers (.objectKey key :: .arrayBegin :: calls ++ [.arrayEnd]) := by
  obtain ⟨elems, h⟩ := h
  refine ⟨[(key, .array elems)], ?_⟩
  simp [membersEvents, Document.events, JsonPrinterCall.events, h]

/-- **The members of an object, between its brackets.** -/
theorem whole (h : DescribesMembers calls) :
    ∃ members, Describes (.objectBegin :: calls ++ [.objectEnd]) (.object members) := by
  obtain ⟨members, h⟩ := h
  refine ⟨members, ?_⟩
  simp [Describes, Document.events, JsonPrinterCall.events, h]

end DescribesMembers

namespace DescribesElems

variable {calls calls' : List JsonPrinterCall}

theorem nil : DescribesElems [] := ⟨[], rfl⟩

theorem append (h : DescribesElems calls) (h' : DescribesElems calls') :
    DescribesElems (calls ++ calls') := by
  obtain ⟨elems, h⟩ := h
  obtain ⟨elems', h'⟩ := h'
  exact ⟨elems ++ elems', by rw [List.flatMap_append, h, h', elemsEvents_append]⟩

theorem flatMap {α : Type*} {f : α → List JsonPrinterCall} : ∀ {l : List α},
    (∀ a ∈ l, DescribesElems (f a)) → DescribesElems (l.flatMap f)
  | [], _ => nil
  | a :: _, h => (h a List.mem_cons_self).append (flatMap fun b hb => h b (List.mem_cons_of_mem a hb))

theorem object (h : DescribesMembers calls) :
    DescribesElems (.objectBegin :: calls ++ [.objectEnd]) := by
  obtain ⟨members, h⟩ := h.whole
  refine ⟨[.object members], ?_⟩
  rw [elemsEvents, elemsEvents, List.append_nil]
  exact h

end DescribesElems

/-- The number of values that some calls print outside of all brackets, when `n`
    brackets are open before them. -/
def topLevelValues (n : ℕ) : List JsonPrinterCall → ℕ
  | [] => 0
  | c :: calls => (if n = 0 then 1 else 0) + topLevelValues (c.nesting n) calls

/-! ## The printer at a position of a document -/

namespace JsonPrinter

variable {ctx ctx' : JsonPrinter} {frames : List (Frame (List Byte) JsonAtom)}

@[simp] theorem write_stack (ctx : JsonPrinter) (tokens : List JsonToken) :
    (ctx.write tokens).stack = ctx.stack := rfl

@[simp] theorem write_firstElement (ctx : JsonPrinter) (tokens : List JsonToken) :
    (ctx.write tokens).firstElement = ctx.firstElement := rfl

@[simp] theorem write_out (ctx : JsonPrinter) (tokens : List JsonToken) :
    (ctx.write tokens).out = ctx.out ++ tokens := rfl

@[simp] theorem optionalSeparator_stack (ctx : JsonPrinter) :
    ctx.optionalSeparator.stack = ctx.stack := by
  rw [optionalSeparator]
  split_ifs <;> rfl

@[simp] theorem optionalSeparator_firstElement (ctx : JsonPrinter) :
    ctx.optionalSeparator.firstElement = false := by
  rw [optionalSeparator]
  split_ifs with h
  · rfl
  · simpa using h

/-- What `json_printer_optional_separator` writes. -/
def separator (ctx : JsonPrinter) : List JsonToken := if ctx.firstElement then [] else [.comma]

@[simp] theorem optionalSeparator_out (ctx : JsonPrinter) :
    ctx.optionalSeparator.out = ctx.out ++ ctx.separator := by
  rw [optionalSeparator, separator]
  split_ifs
  · rw [List.append_nil]
  · rfl

/-- The brackets that are open around the value that some frames wait for. -/
def framesLevels : List (Frame (List Byte) JsonAtom) → List JsonPrinterLevel
  | [] => [.sentinel]
  | .array _ :: frames => .array :: framesLevels frames
  | .member _ _ :: frames => .object :: framesLevels frames

/-- The entries of the stack at a position. -/
def levels : Position (List Byte) JsonAtom → List JsonPrinterLevel
  | .value (.member members key :: frames) => .key :: framesLevels (.member members key :: frames)
  | .value frames => framesLevels frames
  | .object _ frames => .object :: framesLevels frames
  | .done _ => [.sentinel]

/-- The separator that is needed at a position. -/
def separatorAt : Position (List Byte) JsonAtom → List JsonToken
  | .value frames => Position.framesSeparator frames
  | .object members _ => Document.separator members
  | .done _ => []

/-- The printer is at a position of a document.  Behind the document the flag
    has no meaning. -/
structure At (ctx : JsonPrinter) (p : Position (List Byte) JsonAtom) : Prop where
  out : ctx.out = p.tokens .string
  stack : ctx.stack = levels p
  first : (∀ v, p ≠ .done v) → ctx.separator = separatorAt p

theorem length_framesLevels (frames : List (Frame (List Byte) JsonAtom)) :
    (framesLevels frames).length = frames.length + 1 := by
  induction frames with
  | nil => rfl
  | cons f frames ih =>
    cases f with
    | array => rw [framesLevels, List.length_cons, ih, List.length_cons]
    | member => rw [framesLevels, List.length_cons, ih, List.length_cons]

/-- A value starts where one is expected; behind a key, the key is done. -/
theorem beginValue_eq (h : ctx.stack.head? = some .sentinel ∨ ctx.stack.head? = some .array) :
    ctx.beginValue = some ctx.optionalSeparator := by
  rw [beginValue, stackAssertExpectValue]
  rcases h with h | h
  · simp [h, stackPopOpt]
  · simp [h, stackPopOpt]

theorem beginValue_key (h : ctx.stack.head? = some .key) :
    ctx.beginValue = some { ctx.optionalSeparator with stack := ctx.stack.tail } := by
  rw [beginValue, stackAssertExpectValue]
  simp [h, stackPopOpt]

/-- **The start of a value**: its separator. -/
theorem At.beginValue (h : At ctx (.value frames)) :
    ∃ ctx', ctx.beginValue = some ctx' ∧ ctx'.stack = framesLevels frames ∧
      ctx'.firstElement = false ∧
      ctx'.out = Position.framesTokens .string frames ++ Position.framesSeparator frames := by
  have hout : ctx.optionalSeparator.out =
      Position.framesTokens .string frames ++ Position.framesSeparator frames := by
    rw [optionalSeparator_out, h.out, h.first (by simp), separatorAt, Position.tokens]
  have hstack := h.stack
  rcases frames with _ | ⟨_ | ⟨members, key⟩, frames⟩
  · refine ⟨_, beginValue_eq (.inl ?_), ?_, optionalSeparator_firstElement ctx, hout⟩
    · rw [hstack]
      rfl
    · rw [optionalSeparator_stack, hstack]
      rfl
  · refine ⟨_, beginValue_eq (.inr ?_), ?_, optionalSeparator_firstElement ctx, hout⟩
    · rw [hstack]
      rfl
    · rw [optionalSeparator_stack, hstack]
      rfl
  · refine ⟨_, beginValue_key ?_, ?_, optionalSeparator_firstElement ctx, hout⟩
    · rw [hstack]
      rfl
    · rw [hstack]
      rfl

/-- Between the members of an object no value may be printed. -/
theorem At.beginValue_object {members : List (List Byte × PrintedDocument)}
    (h : At ctx (.object members frames)) : ctx.beginValue = none := by
  rw [JsonPrinter.beginValue, stackAssertExpectValue, h.stack]
  rfl

/-- **The end of a value.** -/
theorem At.add {v : PrintedDocument} (hstack : ctx.stack = framesLevels frames)
    (hfirst : frames ≠ [] → ctx.firstElement = false)
    (hout : ctx.out = Position.framesTokens .string frames ++ Position.framesSeparator frames ++
      v.tokens .string) : At ctx (Position.add frames v) := by
  have hsep : frames ≠ [] → ctx.separator = [.comma] := by
    intro hne
    rw [separator, hfirst hne]
    rfl
  refine ⟨hout.trans (Position.tokens_add _ _ _).symm, ?_, ?_⟩
  · rcases frames with _ | ⟨_ | _, frames⟩
    · exact hstack
    · exact hstack
    · exact hstack
  · intro hdone
    rcases frames with _ | ⟨_ | _, frames⟩
    · exact absurd rfl (hdone v)
    · rw [hsep (List.cons_ne_nil _ _), Position.add, separatorAt, Position.framesSeparator,
        separator_of_ne (by simp)]
    · rw [hsep (List.cons_ne_nil _ _), Position.add, separatorAt, separator_of_ne (by simp)]

/-! ### The calls -/

variable {p : Position (List Byte) JsonAtom}

theorem At.value_of_begin (h : At ctx p) (hp : ∀ v, p ≠ .done v) (hb : ctx.beginValue = some ctx') :
    ∃ frames, p = .value frames ∧ ctx'.stack = framesLevels frames ∧ ctx'.firstElement = false ∧
      ctx'.out = Position.framesTokens .string frames ++ Position.framesSeparator frames := by
  cases p with
  | value frames =>
    obtain ⟨ctx₁, hb₁, h₁⟩ := h.beginValue
    obtain rfl : ctx₁ = ctx' := Option.some_inj.1 (hb₁.symm.trans hb)
    exact ⟨frames, rfl, h₁⟩
  | object members frames =>
    rw [h.beginValue_object] at hb
    cases hb
  | done v => exact absurd rfl (hp v)

theorem At.top_array (h : At ctx p) (ht : ctx.stack.head? = some .array) :
    ∃ elems frames, p = .value (.array elems :: frames) := by
  rw [h.stack] at ht
  rcases p with (_ | ⟨elems | _, frames⟩) | _ | _
  case value.cons.array => exact ⟨elems, frames, rfl⟩
  all_goals cases ht

theorem At.top_object (h : At ctx p) (ht : ctx.stack.head? = some .object) :
    ∃ members frames, p = .object members frames := by
  rw [h.stack] at ht
  rcases p with (_ | ⟨_ | _, _⟩) | ⟨members, frames⟩ | _
  case object => exact ⟨members, frames, rfl⟩
  all_goals cases ht

theorem stackAssert_eq_some_iff {v : JsonPrinterLevel} :
    ctx.stackAssert v = some ctx' ↔ ctx.stack.head? = some v ∧ ctx' = ctx := by
  rw [stackAssert, Option.ite_none_right_eq_some, Option.some_inj, eq_comm (a := ctx)]

/-- **A value that is no array or object.** -/
theorem At.value (h : At ctx p) (hp : ∀ v, p ≠ .done v) {val : JsonAtom}
    (hc : ctx.value val = some ctx') :
    ∃ frames, p = .value frames ∧ At ctx' (Position.add frames (.leaf val)) := by
  obtain ⟨ctx₁, hb, hc⟩ := Option.bind_eq_some_iff.1 hc
  obtain ⟨frames, rfl, hstack, hfirst, hout⟩ := h.value_of_begin hp hb
  obtain rfl := Option.some_inj.1 hc
  refine ⟨frames, rfl, At.add hstack (fun _ => hfirst) ?_⟩
  rw [write_out, hout, Document.tokens]

theorem stackPush_eq_some_iff {v : JsonPrinterLevel} :
    ctx.stackPush v = some ctx' ↔ ctx.depth < jsonPrinterMaxDepth ∧
      ctx' = { ctx with stack := v :: ctx.stack, firstElement := true } := by
  rw [stackPush, Option.ite_none_right_eq_some, Option.some_inj, eq_comm (b := ctx')]

/-- **The start of an array.** -/
theorem At.arrayBegin (h : At ctx p) (hp : ∀ v, p ≠ .done v) (hc : ctx.arrayBegin = some ctx') :
    ∃ frames, p = .value frames ∧ At ctx' (.value (.array [] :: frames)) := by
  obtain ⟨ctx₁, hb, hc⟩ := Option.bind_eq_some_iff.1 hc
  obtain ⟨frames, rfl, hstack, hfirst, hout⟩ := h.value_of_begin hp hb
  obtain ⟨-, rfl⟩ := stackPush_eq_some_iff.1 hc
  refine ⟨frames, rfl, ?_, ?_, fun _ => rfl⟩
  · rw [Position.tokens, Position.framesTokens, write_out, hout, elemsTokens, List.intercalate_nil]
  · rw [write_stack, hstack]
    rfl

/-- **The start of an object.** -/
theorem At.objectBegin (h : At ctx p) (hp : ∀ v, p ≠ .done v) (hc : ctx.objectBegin = some ctx') :
    ∃ frames, p = .value frames ∧ At ctx' (.object [] frames) := by
  obtain ⟨ctx₁, hb, hc⟩ := Option.bind_eq_some_iff.1 hc
  obtain ⟨frames, rfl, hstack, hfirst, hout⟩ := h.value_of_begin hp hb
  obtain ⟨-, rfl⟩ := stackPush_eq_some_iff.1 hc
  refine ⟨frames, rfl, ?_, ?_, fun _ => rfl⟩
  · rw [Position.tokens, write_out, hout, membersTokens, List.intercalate_nil]
  · rw [write_stack, hstack]
    rfl

/-- Below the bracket that is closed there is the sentinel, or another bracket. -/
theorem stackPop_eq_some_iff {v : JsonPrinterLevel} :
    ctx.stackPop v = some ctx' ↔ ctx.stack.head? = some v ∧
      ctx' = { ctx with
        stack := ctx.stack.tail, firstElement := ctx.stack.tail.length == 1 } := by
  rw [stackPop, Option.bind_eq_bind, Option.bind_eq_some_iff]
  constructor
  · rintro ⟨ctx₁, h, hctx'⟩
    obtain ⟨htop, rfl⟩ := stackAssert_eq_some_iff.1 h
    exact ⟨htop, (Option.some_inj.1 hctx').symm⟩
  · rintro ⟨htop, rfl⟩
    exact ⟨ctx, stackAssert_eq_some_iff.2 ⟨htop, rfl⟩, rfl⟩

/-- Below a bracket inside of another one the flag is cleared. -/
theorem length_framesLevels_ne (h : frames ≠ []) :
    ((framesLevels frames).length == 1) = false := by
  rw [length_framesLevels, beq_eq_false_iff_ne]
  have := List.length_pos_iff.2 h
  omega

/-- **The end of an array.** -/
theorem At.arrayEnd (h : At ctx p) (hc : ctx.arrayEnd = some ctx') :
    ∃ elems frames, p = .value (.array elems :: frames) ∧
      At ctx' (Position.add frames (.array elems)) := by
  obtain ⟨htop, rfl⟩ := stackPop_eq_some_iff.1 hc
  obtain ⟨elems, frames, rfl⟩ := h.top_array htop
  have hstack : ctx.stack.tail = framesLevels frames := by
    rw [h.stack]
    rfl
  refine ⟨elems, frames, rfl, At.add hstack ?_ ?_⟩
  · intro hne
    simp only [write_stack, hstack]
    exact length_framesLevels_ne hne
  · rw [write_out, h.out, Position.tokens, Position.framesTokens, Document.tokens,
      List.append_assoc, List.cons_append]

/-- **The end of an object.** -/
theorem At.objectEnd (h : At ctx p) (hc : ctx.objectEnd = some ctx') :
    ∃ members frames, p = .object members frames ∧
      At ctx' (Position.add frames (.object members)) := by
  obtain ⟨htop, rfl⟩ := stackPop_eq_some_iff.1 hc
  obtain ⟨members, frames, rfl⟩ := h.top_object htop
  have hstack : ctx.stack.tail = framesLevels frames := by
    rw [h.stack]
    rfl
  refine ⟨members, frames, rfl, At.add hstack ?_ ?_⟩
  · intro hne
    simp only [write_stack, hstack]
    exact length_framesLevels_ne hne
  · rw [write_out, h.out, Position.tokens, Document.tokens, List.append_assoc, List.cons_append]

/-- **A key.** -/
theorem At.objectKey (h : At ctx p) {key : List Byte} (hc : ctx.objectKey key = some ctx') :
    ∃ members frames, p = .object members frames ∧
      At ctx' (.value (.member members key :: frames)) := by
  obtain ⟨ctx₁, ha, hc₁⟩ := Option.bind_eq_some_iff.1 hc
  obtain ⟨htop, rfl⟩ := stackAssert_eq_some_iff.1 ha
  obtain ⟨ctx₂, hpush, hc₂⟩ := Option.bind_eq_some_iff.1 hc₁
  obtain ⟨-, rfl⟩ := stackPush_eq_some_iff.1 hpush
  obtain ⟨members, frames, rfl⟩ := h.top_object htop
  obtain rfl := Option.some_inj.1 hc₂
  refine ⟨members, frames, rfl, ?_, ?_, fun _ => rfl⟩
  · rw [Position.tokens, Position.framesTokens, write_out, optionalSeparator_out, h.out,
      h.first (by simp), separatorAt, Position.tokens]
  · rw [write_stack, optionalSeparator_stack, h.stack]
    rfl

/-- **A key with its value.** -/
theorem At.objectPair (h : At ctx p) {key : List Byte} {val : JsonAtom}
    (hc : ctx.objectPair key val = some ctx') :
    ∃ members frames, p = .object members frames ∧
      At ctx' (.object (members ++ [(key, .leaf val)]) frames) := by
  obtain ⟨ctx₁, ha, hc₁⟩ := Option.bind_eq_some_iff.1 hc
  obtain ⟨htop, rfl⟩ := stackAssert_eq_some_iff.1 ha
  obtain ⟨members, frames, rfl⟩ := h.top_object htop
  obtain rfl := Option.some_inj.1 hc₁
  refine ⟨members, frames, rfl, ?_⟩
  change At _ (Position.add (.member members key :: frames) (.leaf val))
  refine At.add ?_ ?_ ?_
  · rw [write_stack, optionalSeparator_stack, h.stack]
    rfl
  · intro _
    rw [write_firstElement, optionalSeparator_firstElement]
  · rw [Position.framesTokens, Position.framesSeparator, write_out, optionalSeparator_out,
      h.out, h.first (by simp), separatorAt, Position.tokens, Document.tokens]
    simp only [List.append_assoc, List.cons_append, List.nil_append]

/-- **Every call follows its events.** -/
theorem At.call (h : At ctx p) (hp : ∀ v, p ≠ .done v) {c : JsonPrinterCall}
    (hc : ctx.call c = some ctx') : ∃ p', p.run c.events = some p' ∧ At ctx' p' := by
  cases c with
  | uint32 | uint64 | boolean | string =>
    obtain ⟨frames, rfl, h'⟩ := h.value hp hc
    exact ⟨_, rfl, h'⟩
  | arrayBegin =>
    obtain ⟨frames, rfl, h'⟩ := h.arrayBegin hp hc
    exact ⟨_, rfl, h'⟩
  | arrayEnd =>
    obtain ⟨elems, frames, rfl, h'⟩ := h.arrayEnd hc
    exact ⟨_, rfl, h'⟩
  | objectBegin =>
    obtain ⟨frames, rfl, h'⟩ := h.objectBegin hp hc
    exact ⟨_, rfl, h'⟩
  | objectKey key =>
    obtain ⟨members, frames, rfl, h'⟩ := h.objectKey hc
    exact ⟨_, rfl, h'⟩
  | objectPairUint32 | objectPairUint64 | objectPairBoolean | objectPairString =>
    obtain ⟨members, frames, rfl, h'⟩ := h.objectPair hc
    exact ⟨_, rfl, h'⟩
  | objectEnd =>
    obtain ⟨members, frames, rfl, h'⟩ := h.objectEnd hc
    exact ⟨_, rfl, h'⟩

/-! ## Runs -/

/-- A call changes the nesting as its events do. -/
theorem nesting_run {c : JsonPrinterCall} {p' : Position (List Byte) JsonAtom}
    (h : p.run c.events = some p') : c.nesting p.depth = p'.depth := by
  cases c with
  | uint32 | uint64 | boolean | string =>
    cases p with
    | value frames =>
      rw [← Option.some_inj.1 h]
      exact (Position.depth_add _ _).symm
    | object | done => cases h
  | arrayBegin | objectBegin =>
    cases p with
    | value frames =>
      rw [← Option.some_inj.1 h]
      rfl
    | object | done => cases h
  | arrayEnd =>
    rcases p with (_ | ⟨elems | _, frames⟩) | _ | _
    case value.cons.array =>
      rw [← Option.some_inj.1 h, Position.depth_add]
      rfl
    all_goals cases h
  | objectKey =>
    cases p with
    | object members frames =>
      rw [← Option.some_inj.1 h]
      rfl
    | value | done => cases h
  | objectPairUint32 | objectPairUint64 | objectPairBoolean | objectPairString =>
    cases p with
    | object members frames =>
      rw [← Option.some_inj.1 h]
      rfl
    | value | done => cases h
  | objectEnd =>
    cases p with
    | object members frames =>
      rw [← Option.some_inj.1 h, Position.depth_add]
      rfl
    | value | done => cases h

/-- The values outside of all brackets that may still come: one at the start. -/
def remaining : Position (List Byte) JsonAtom → ℕ
  | .value [] => 1
  | _ => 0

theorem remaining_eq_zero (h : p ≠ .value []) : remaining p = 0 := by
  rcases p with (_ | ⟨f, frames⟩) | _ | _
  · exact absurd rfl h
  · rfl
  · rfl
  · rfl

/-- Behind a call the start is left. -/
theorem ne_start {c : JsonPrinterCall} {p' : Position (List Byte) JsonAtom}
    (h : p.run c.events = some p') : p' ≠ .value [] := by
  rintro rfl
  have hevents := (Position.events_run h).symm
  rw [Position.events, Position.framesEvents, List.append_eq_nil_iff] at hevents
  cases c <;> cases hevents.2

/-- **Calls that print one value outside of all brackets follow their events.** -/
theorem At.calls (h : At ctx p) {calls : List JsonPrinterCall}
    (hone : topLevelValues p.depth calls = remaining p)
    (hr : calls.foldlM JsonPrinter.call ctx = some ctx') :
    ∃ p', p.run (calls.flatMap JsonPrinterCall.events) = some p' ∧ At ctx' p' ∧ p' ≠ .value [] := by
  induction calls generalizing ctx p with
  | nil =>
    obtain rfl := Option.some_inj.1 hr
    refine ⟨p, rfl, h, ?_⟩
    rintro rfl
    cases hone
  | cons c calls ih =>
    rw [topLevelValues] at hone
    have hp : ∀ v, p ≠ .done v := by
      rintro v rfl
      rw [Position.depth, if_pos rfl, remaining_eq_zero (by simp)] at hone
      omega
    obtain ⟨ctx₁, hc, hr⟩ := Option.bind_eq_some_iff.1 hr
    obtain ⟨p₁, hp₁, h₁⟩ := h.call hp hc
    rw [nesting_run hp₁] at hone
    have hrest : topLevelValues p₁.depth calls = remaining p₁ := by
      rw [remaining_eq_zero (ne_start hp₁)]
      -- outside of all brackets only the start is left
      rcases p with (_ | ⟨f, frames⟩) | ⟨members, frames⟩ | v
      · rw [Position.depth, List.length_nil, if_pos rfl, remaining] at hone
        omega
      · rw [Position.depth, List.length_cons, if_neg (by omega), remaining_eq_zero (by simp)] at hone
        omega
      · rw [Position.depth, if_neg (by omega), remaining_eq_zero (by simp)] at hone
        omega
      · exact absurd rfl (hp v)
    obtain ⟨p', hp', h'⟩ := ih h₁ hrest hr
    refine ⟨p', ?_, h'⟩
    rw [List.flatMap_cons, Position.run_append, hp₁]
    exact hp'

/-- The printer at the start. -/
theorem at_start : ∃ ctx, jsonPrinterBegin = some ctx ∧ At ctx (.value []) :=
  ⟨⟨[], true, [.sentinel]⟩, rfl, rfl, rfl, fun _ => rfl⟩

/-- Only behind a document the printer may end. -/
theorem At.end (h : At ctx p) (hp : p ≠ .value []) (he : jsonPrinterEnd ctx = some ctx') :
    ctx' = ctx ∧ ∃ v, p = .done v := by
  obtain ⟨htop, rfl⟩ := stackAssert_eq_some_iff.1 he
  refine ⟨rfl, ?_⟩
  rw [h.stack] at htop
  rcases p with (_ | ⟨_ | _, _⟩) | _ | v
  · exact absurd rfl hp
  · cases htop
  · cases htop
  · cases htop
  · exact ⟨v, rfl⟩

/-- **A pair is a key and a value**, when the key may be pushed. -/
theorem call_pair {c value : JsonPrinterCall} {key : List Byte} (hc : c.pair? = some (key, value))
    (hdepth : ctx.depth < jsonPrinterMaxDepth) :
    ctx.call c = (ctx.call (.objectKey key)).bind fun ctx' => ctx'.call value := by
  have hpair : ∀ val : JsonAtom,
      ctx.objectPair key val = (ctx.objectKey key).bind fun ctx' => ctx'.value val := by
    intro val
    rw [JsonPrinter.objectPair, JsonPrinter.objectKey, stackAssert]
    split_ifs with htop
    · have hpush : ctx.optionalSeparator.stackPush .key = some { ctx.optionalSeparator with
          stack := .key :: ctx.optionalSeparator.stack, firstElement := true } := by
        refine stackPush_eq_some_iff.2 ⟨?_, rfl⟩
        rw [depth, optionalSeparator_stack]
        exact hdepth
      simp only [Option.bind_eq_bind, Option.bind_some, hpush, JsonPrinter.value]
      rw [beginValue_key (by rw [write_stack]; rfl)]
      cases hfirst : ctx.firstElement <;>
        simp [JsonPrinter.write, JsonPrinter.optionalSeparator, hfirst]
    · rfl
  cases c <;> cases hc
  · exact hpair _
  · exact hpair _
  · exact hpair _
  · exact hpair _

end JsonPrinter

/-- A run is its calls, one after the other. -/
theorem jsonPrinterRun_append (before after : List JsonPrinterCall) :
    jsonPrinterRun (before ++ after) = (jsonPrinterCalls before).bind fun ctx =>
      (after.foldlM JsonPrinter.call ctx).bind fun ctx =>
        (jsonPrinterEnd ctx).bind fun ctx => some ctx.out := by
  rw [jsonPrinterRun, jsonPrinterCalls, jsonPrinterCalls]
  simp only [Option.bind_eq_bind, List.foldlM_append, Option.bind_assoc]

/-- **What is printed is the text of the document that the calls describe**, and
    a pair prints what its key and its value print. -/
theorem jsonPrinter_structure :
    (∀ calls out, jsonPrinterRun calls = some out → topLevelValues 0 calls = 1 →
      ∃ v, (∀ w, Describes calls w ↔ w = v) ∧ out = v.text) ∧
    (∀ before after c key value, c.pair? = some (key, value) →
      (∀ ctx, jsonPrinterCalls before = some ctx → ctx.depth < jsonPrinterMaxDepth) →
      jsonPrinterRun (before ++ .objectKey key :: value :: after) =
        jsonPrinterRun (before ++ c :: after)) := by
  constructor
  · intro calls out hr hone
    obtain ⟨ctx, hctx, hr⟩ := Option.bind_eq_some_iff.1 hr
    rw [jsonPrinterCalls, Option.bind_eq_bind, Option.bind_eq_some_iff] at hctx
    obtain ⟨ctx₀, hb, hcalls⟩ := hctx
    obtain ⟨start, hstart, hat⟩ := JsonPrinter.at_start
    obtain rfl : start = ctx₀ := Option.some_inj.1 (hstart.symm.trans hb)
    obtain ⟨p, hp, h, hne⟩ := hat.calls hone hcalls
    obtain ⟨ctx', hend, hout⟩ := Option.bind_eq_some_iff.1 hr
    obtain ⟨rfl, v, rfl⟩ := h.end hne hend
    have hevents := Position.run_eq_done_iff.1 hp
    refine ⟨v, fun w => ⟨fun hw => ?_, fun hw => hw ▸ hevents⟩, ?_⟩
    · exact Document.events_injective (hw.symm.trans hevents)
    · exact (Option.some_inj.1 hout).symm.trans h.out
  · intro before after c key value hc hdepth
    rw [jsonPrinterRun_append, jsonPrinterRun_append]
    cases hbefore : jsonPrinterCalls before with
    | none => rfl
    | some ctx =>
      simp only [Option.bind_some, List.foldlM_cons, Option.bind_eq_bind, Option.bind_assoc,
        JsonPrinter.call_pair hc (hdepth ctx hbefore)]

/-- The calls of `[0, {"a": 0}]`, once with a pair and once with a key. -/
theorem jsonPrinter_structure_array :
    let before : List JsonPrinterCall := [.arrayBegin, .uint32 0, .objectBegin]
    let after : List JsonPrinterCall := [.objectEnd, .arrayEnd]
    let v : PrintedDocument :=
      .array [.leaf (.number 0), .object [(ascii "a", .leaf (.number 0))]]
    (∀ w, Describes (before ++ .objectPairUint32 (ascii "a") 0 :: after) w ↔ w = v) ∧
    jsonPrinterRun (before ++ .objectPairUint32 (ascii "a") 0 :: after) = some v.text ∧
    jsonPrinterRun (before ++ .objectKey (ascii "a") :: .uint32 0 :: after) = some v.text := by
  intro before after v
  have hrun : jsonPrinterRun (before ++ .objectPairUint32 (ascii "a") 0 :: after) = some v.text := by
    decide
  obtain ⟨v', hv', -⟩ := jsonPrinter_structure.1 _ _ hrun (by decide)
  have hv : Describes (before ++ .objectPairUint32 (ascii "a") 0 :: after) v := rfl
  obtain rfl := (hv' v).1 hv
  refine ⟨hv', hrun, (jsonPrinter_structure.2 before after _ _ _ rfl ?_).trans hrun⟩
  intro ctx hctx
  rw [← Option.some_inj.1 hctx]
  decide

end Honas

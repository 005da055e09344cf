/-
  Documents, their events and their text.

  A document is a tree of arrays and objects over leaves.  Its events are what a
  writer is told, in document order; its tokens are what the writer has to write:
  the elements of an array and the members of an object separated by commas, a
  key and its value by a colon.

  A writer that keeps no tree is at some `Position` inside a document.  The
  events that lead from the start to a finished document are exactly the events
  of that document (`run_eq_done_iff`).
-/
import Mathlib.Data.List.Basic

/-- A document with keys in `κ` and leaves in `α`. -/
inductive Document (κ α : Type*) where
  | leaf (value : α)
  | array (elems : List (Document κ α))
  | object (members : List (κ × Document κ α))

/-- What a writer is told. -/
inductive DocumentEvent (κ α : Type*) where
  | leaf (value : α)
  | arrayBegin
  | arrayEnd
  | objectBegin
  | key (key : κ)
  | objectEnd

/-- What a writer writes. -/
inductive DocumentToken (α : Type*) where
  | atom (value : α)
  | comma
  | colon
  | leftBracket
  | rightBracket
  | leftBrace
  | rightBrace
deriving DecidableEq

namespace Document

variable {κ α : Type*}

/-! ## Events and tokens -/

mutual

/-- The events of a document. -/
def events : Document κ α → List (DocumentEvent κ α)
  | leaf value => [.leaf value]
  | array elems => .arrayBegin :: elemsEvents elems ++ [.arrayEnd]
  | object members => .objectBegin :: membersEvents members ++ [.objectEnd]

/-- The events of the elements of an array. -/
def elemsEvents : List (Document κ α) → List (DocumentEvent κ α)
  | [] => []
  | elem :: elems => events elem ++ elemsEvents elems

/-- The events of the members of an object. -/
def membersEvents : List (κ × Document κ α) → List (DocumentEvent κ α)
  | [] => []
  | (key, value) :: members => .key key :: events value ++ membersEvents members

end

theorem elemsEvents_append (a b : List (Document κ α)) :
    elemsEvents (a ++ b) = elemsEvents a ++ elemsEvents b := by
  induction a with
  | nil => rw [List.nil_append, elemsEvents, List.nil_append]
  | cons elem a ih => rw [List.cons_append, elemsEvents, ih, elemsEvents, List.append_assoc]

theorem membersEvents_append (a b : List (κ × Document κ α)) :
    membersEvents (a ++ b) = membersEvents a ++ membersEvents b := by
  induction a with
  | nil => rw [List.nil_append, membersEvents, List.nil_append]
  | cons m a ih =>
    obtain ⟨key, value⟩ := m
    rw [List.cons_append, membersEvents, ih, membersEvents, List.append_assoc]

section Tokens

variable (keyText : κ → α)

mutual

/-- The text of a document, when a key is written as `keyText`. -/
def tokens : Document κ α → List (DocumentToken α)
  | leaf value => [.atom value]
  | array elems => .leftBracket :: [.comma].intercalate (elemsTokens elems) ++ [.rightBracket]
  | object members => .leftBrace :: [.comma].intercalate (membersTokens members) ++ [.rightBrace]

/-- The texts of the elements of an array. -/
def elemsTokens : List (Document κ α) → List (List (DocumentToken α))
  | [] => []
  | elem :: elems => tokens elem :: elemsTokens elems

/-- The texts of the members of an object. -/
def membersTokens : List (κ × Document κ α) → List (List (DocumentToken α))
  | [] => []
  | (key, value) :: members =>
    (.atom (keyText key) :: .colon :: tokens value) :: membersTokens members

end

theorem elemsTokens_append (a b : List (Document κ α)) :
    elemsTokens keyText (a ++ b) = elemsTokens keyText a ++ elemsTokens keyText b := by
  induction a with
  | nil => rw [List.nil_append, elemsTokens, List.nil_append]
  | cons elem a ih => rw [List.cons_append, elemsTokens, ih, elemsTokens, List.cons_append]

theorem membersTokens_append (a b : List (κ × Document κ α)) :
    membersTokens keyText (a ++ b) = membersTokens keyText a ++ membersTokens keyText b := by
  induction a with
  | nil => rw [List.nil_append, membersTokens, List.nil_append]
  | cons m a ih =>
    obtain ⟨key, value⟩ := m
    rw [List.cons_append, membersTokens, ih, membersTokens, List.cons_append]

/-- The separator behind the elements or members `l`. -/
def separator {β : Type*} (l : List β) : List (DocumentToken α) :=
  if l = [] then [] else [.comma]

@[simp] theorem separator_nil {β : Type*} : separator ([] : List β) = ([] : List (DocumentToken α)) :=
  rfl

theorem separator_of_ne {β : Type*} {l : List β} (h : l ≠ []) :
    separator l = ([.comma] : List (DocumentToken α)) := if_neg h

end Tokens

/-- One more text is written behind the others, with a separator. -/
theorem intercalate_concat {β : Type*} (sep x : List β) : ∀ l : List (List β),
    sep.intercalate (l ++ [x]) = sep.intercalate l ++ (if l = [] then [] else sep) ++ x
  | [] => by simp
  | [y] => by simp
  | y :: z :: l => by
    have ih := intercalate_concat sep x (z :: l)
    rw [if_neg (List.cons_ne_nil z l), List.cons_append] at ih
    rw [if_neg (List.cons_ne_nil y (z :: l)), List.cons_append, List.cons_append,
      List.intercalate_cons_cons, List.intercalate_cons_cons, ih]
    simp only [List.append_assoc]

section Tokens

variable (keyText : κ → α)

theorem intercalate_elemsTokens_concat (elems : List (Document κ α)) (elem : Document κ α) :
    [.comma].intercalate (elemsTokens keyText (elems ++ [elem])) =
      [.comma].intercalate (elemsTokens keyText elems) ++ separator elems ++
        elem.tokens keyText := by
  rw [elemsTokens_append, elemsTokens, elemsTokens, intercalate_concat]
  cases elems with
  | nil => rfl
  | cons => rfl

theorem intercalate_membersTokens_concat (members : List (κ × Document κ α)) (key : κ)
    (value : Document κ α) :
    [.comma].intercalate (membersTokens keyText (members ++ [(key, value)])) =
      [.comma].intercalate (membersTokens keyText members) ++ separator members ++
        .atom (keyText key) :: .colon :: value.tokens keyText := by
  rw [membersTokens_append, membersTokens, membersTokens, intercalate_concat]
  cases members with
  | nil => rfl
  | cons => rfl

end Tokens

/-! ## Positions -/

/-- An array or object that waits for a value, with what it has so far. -/
inductive Frame (κ α : Type*) where
  | array (elems : List (Document κ α))
  | member (members : List (κ × Document κ α)) (key : κ)

/-- Where a writer is: before a value, between the members of an object, or
    behind a whole document. -/
inductive Position (κ α : Type*) where
  | value (frames : List (Frame κ α))
  | object (members : List (κ × Document κ α)) (frames : List (Frame κ α))
  | done (document : Document κ α)

namespace Position

/-- The position behind a value. -/
def add : List (Frame κ α) → Document κ α → Position κ α
  | [], v => done v
  | .array elems :: frames, v => value (.array (elems ++ [v]) :: frames)
  | .member members key :: frames, v => object (members ++ [(key, v)]) frames

/-- The position after an event, when the event is possible. -/
def step : Position κ α → DocumentEvent κ α → Option (Position κ α)
  | value frames, .leaf v => some (add frames (.leaf v))
  | value frames, .arrayBegin => some (value (.array [] :: frames))
  | value frames, .objectBegin => some (object [] frames)
  | value (.array elems :: frames), .arrayEnd => some (add frames (.array elems))
  | object members frames, .key key => some (value (.member members key :: frames))
  | object members frames, .objectEnd => some (add frames (.object members))
  | _, _ => none

/-- The positions before and after some events. -/
def run (p : Position κ α) (es : List (DocumentEvent κ α)) : Option (Position κ α) :=
  es.foldlM step p

theorem run_append (p : Position κ α) (es es' : List (DocumentEvent κ α)) :
    p.run (es ++ es') = (p.run es).bind fun p' => p'.run es' :=
  List.foldlM_append

/-- The number of arrays and objects around a position. -/
def depth : Position κ α → ℕ
  | value frames => frames.length
  | object _ frames => frames.length + 1
  | done _ => 0

theorem depth_add (frames : List (Frame κ α)) (v : Document κ α) :
    (add frames v).depth = frames.length := by
  rcases frames with _ | ⟨_ | _, frames⟩
  · rfl
  · rfl
  · rfl

/-! ### The events up to a position -/

/-- The events up to the value that some frames wait for. -/
def framesEvents : List (Frame κ α) → List (DocumentEvent κ α)
  | [] => []
  | .array elems :: frames => framesEvents frames ++ .arrayBegin :: elemsEvents elems
  | .member members key :: frames =>
    framesEvents frames ++ .objectBegin :: membersEvents members ++ [.key key]

/-- The events up to a position. -/
def events : Position κ α → List (DocumentEvent κ α)
  | value frames => framesEvents frames
  | object members frames => framesEvents frames ++ .objectBegin :: membersEvents members
  | done v => v.events

theorem events_add (frames : List (Frame κ α)) (v : Document κ α) :
    (add frames v).events = framesEvents frames ++ v.events := by
  rcases frames with _ | ⟨_ | _, frames⟩
  · rfl
  · simp [add, events, framesEvents, elemsEvents_append, elemsEvents]
  · simp [add, events, framesEvents, membersEvents_append, membersEvents]

/-- **A step adds its event.** -/
theorem events_step {p p' : Position κ α} {e : DocumentEvent κ α} (h : p.step e = some p') :
    p'.events = p.events ++ [e] := by
  match p, e, h with
  | value frames, .leaf v, h =>
    rw [← Option.some_inj.1 h, events_add, events, Document.events]
  | value frames, .arrayBegin, h =>
    rw [← Option.some_inj.1 h, events, events, framesEvents, elemsEvents]
  | value frames, .objectBegin, h =>
    rw [← Option.some_inj.1 h, events, events, membersEvents]
  | value (.array elems :: frames), .arrayEnd, h =>
    rw [← Option.some_inj.1 h, events_add, events, framesEvents, Document.events,
      List.append_assoc]
  | object members frames, .key key, h =>
    rw [← Option.some_inj.1 h, events, events, framesEvents]
  | object members frames, .objectEnd, h =>
    rw [← Option.some_inj.1 h, events_add, events, Document.events, List.append_assoc]

/-- **Many steps add their events.** -/
theorem events_run {p p' : Position κ α} {es : List (DocumentEvent κ α)} (h : p.run es = some p') :
    p'.events = p.events ++ es := by
  induction es generalizing p with
  | nil =>
    rw [← Option.some_inj.1 h, List.append_nil]
  | cons e es ih =>
    obtain ⟨p₁, h₁, h⟩ := Option.bind_eq_some_iff.1 h
    rw [ih h, events_step h₁, List.append_assoc, List.singleton_append]

mutual

/-- The events of a document lead behind it. -/
theorem run_events (frames : List (Frame κ α)) :
    ∀ v : Document κ α, (value frames).run v.events = some (add frames v)
  | .leaf _ => rfl
  | .array elems => by
    rw [Document.events, List.cons_append, ← List.singleton_append, run_append]
    change ((value (.array [] :: frames)).run _) = _
    rw [run_append, run_elemsEvents frames [] elems]
    rfl
  | .object members => by
    rw [Document.events, List.cons_append, ← List.singleton_append, run_append]
    change ((object [] frames).run _) = _
    rw [run_append, run_membersEvents frames [] members]
    rfl

theorem run_elemsEvents (frames : List (Frame κ α)) (before : List (Document κ α)) :
    ∀ elems : List (Document κ α), (value (.array before :: frames)).run (elemsEvents elems) =
      some (value (.array (before ++ elems) :: frames))
  | [] => by
    rw [List.append_nil]
    rfl
  | elem :: elems => by
    rw [elemsEvents, run_append, run_events _ elem, Option.bind_some, add,
      run_elemsEvents frames (before ++ [elem]) elems, List.append_assoc, List.singleton_append]

theorem run_membersEvents (frames : List (Frame κ α)) (before : List (κ × Document κ α)) :
    ∀ members : List (κ × Document κ α), (object before frames).run (membersEvents members) =
      some (object (before ++ members) frames)
  | [] => by
    rw [List.append_nil]
    rfl
  | (key, v) :: members => by
    rw [membersEvents, List.cons_append, ← List.singleton_append, run_append]
    change ((value (.member before key :: frames)).run _) = _
    rw [run_append, run_events _ v, Option.bind_some, add,
      run_membersEvents frames (before ++ [(key, v)]) members, List.append_assoc,
      List.singleton_append]

end

/-- **The events that lead from the start to a document are its events.** -/
theorem run_eq_done_iff {es : List (DocumentEvent κ α)} {v : Document κ α} :
    (value []).run es = some (done v) ↔ es = v.events := by
  constructor
  · intro h
    exact (events_run h).symm
  · rintro rfl
    exact run_events [] v

end Position

/-- A document is determined by its events. -/
theorem events_injective : Function.Injective (events : Document κ α → List (DocumentEvent κ α)) := by
  intro v w h
  have hv := Position.run_events [] v
  rw [h, Position.run_events] at hv
  exact (Position.done.inj (Option.some_inj.1 hv)).symm

namespace Position

/-! ### The text up to a position -/

section Tokens

variable (keyText : κ → α)

/-- The separator before the value that some frames wait for. -/
def framesSeparator : List (Frame κ α) → List (DocumentToken α)
  | [] => []
  | .array elems :: _ => separator elems
  | .member _ _ :: _ => []

/-- The text up to the value that some frames wait for, without a separator. -/
def framesTokens : List (Frame κ α) → List (DocumentToken α)
  | [] => []
  | .array elems :: frames =>
    framesTokens frames ++ framesSeparator frames ++
      .leftBracket :: [.comma].intercalate (elemsTokens keyText elems)
  | .member members key :: frames =>
    framesTokens frames ++ framesSeparator frames ++
      .leftBrace :: [.comma].intercalate (membersTokens keyText members) ++ separator members ++
        [.atom (keyText key), .colon]

/-- The text up to a position. -/
def tokens : Position κ α → List (DocumentToken α)
  | value frames => framesTokens keyText frames
  | object members frames =>
    framesTokens keyText frames ++ framesSeparator frames ++
      .leftBrace :: [.comma].intercalate (membersTokens keyText members)
  | done v => v.tokens keyText

/-- **A value adds its separator and its text.** -/
theorem tokens_add (frames : List (Frame κ α)) (v : Document κ α) :
    (add frames v).tokens keyText =
      framesTokens keyText frames ++ framesSeparator frames ++ v.tokens keyText := by
  rcases frames with _ | ⟨_ | _, frames⟩
  · rfl
  · simp [add, tokens, framesTokens, framesSeparator, intercalate_elemsTokens_concat]
  · simp [add, tokens, framesTokens, framesSeparator, intercalate_membersTokens_concat]

end Tokens

end Position

end Document

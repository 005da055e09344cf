/-
  JSON documents and the events of a streaming parser.

  A parser that does not build a value reports a document as a sequence of
  events, in document order.  `events` is the sequence of a value; a consumer
  that folds over it sees a member of an object as its key and the events of
  its value, and the end of the object after the last member.
-/
import Honas.Lib.Bits

open Bits

/-- The bytes of an ASCII text. -/
def ascii (s : String) : List Byte := s.toList.map fun c => BitVec.ofNat 8 c.toNat

/-- A JSON value.  Integers have 64 bits; the value of other numbers is not
    kept. -/
inductive Json where
  | null
  | boolean (value : Bool)
  | integer (value : BitVec 64)
  | double
  | string (value : List Byte)
  | array (elems : List Json)
  | object (members : List (List Byte × Json))

/-- What the parser reports. -/
inductive JsonEvent where
  | null
  | boolean (value : Bool)
  | integer (value : BitVec 64)
  | double
  | string (value : List Byte)
  | startMap
  | mapKey (key : List Byte)
  | endMap
  | startArray
  | endArray
deriving DecidableEq

namespace Json

mutual

/-- The events of a value. -/
def events : Json → List JsonEvent
  | null => [.null]
  | boolean value => [.boolean value]
  | integer value => [.integer value]
  | double => [.double]
  | string value => [.string value]
  | array elems => .startArray :: elemsEvents elems ++ [.endArray]
  | object members => .startMap :: membersEvents members ++ [.endMap]

/-- The events of the elements of an array. -/
def elemsEvents : List Json → List JsonEvent
  | [] => []
  | elem :: elems => events elem ++ elemsEvents elems

/-- The events of the members of an object. -/
def membersEvents : List (List Byte × Json) → List JsonEvent
  | [] => []
  | (key, value) :: members => .mapKey key :: events value ++ membersEvents members

end

theorem elemsEvents_append (a b : List Json) :
    elemsEvents (a ++ b) = elemsEvents a ++ elemsEvents b := by
  induction a with
  | nil => rw [List.nil_append, elemsEvents, List.nil_append]
  | cons elem a ih => rw [List.cons_append, elemsEvents, ih, elemsEvents, List.append_assoc]

theorem membersEvents_append (a b : List (List Byte × Json)) :
    membersEvents (a ++ b) = membersEvents a ++ membersEvents b := by
  induction a with
  | nil => rw [List.nil_append, membersEvents, List.nil_append]
  | cons m a ih =>
    obtain ⟨key, value⟩ := m
    rw [List.cons_append, membersEvents, ih, membersEvents, List.append_assoc]

/-- A value that is a single event without a number in it: `null`, a boolean or
    a number that is no integer. -/
def IsLiteral : Json → Prop
  | null | boolean _ | double => True
  | _ => False

instance : DecidablePred IsLiteral := fun
  | null | boolean _ | double => .isTrue trivial
  | integer _ | string _ | array _ | object _ => .isFalse id

end Json

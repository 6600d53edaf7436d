import Kinetics.Dict
import Kinetics.Json.Reader

/-!
# Kinetics.Json.Record

What JSON values denote: texts, numbers, lists, maps, sets, words of an enumeration and records. A
record is an object, in which no field may stand twice and unknown fields are ignored, or an array
of its fields in order, which may end early.
-/

namespace Kinetics

namespace Json

def asText : Json → Option String
  | .string l => l.text?
  | _ => none

def asFloat : Json → Option Float
  | .number n => n.toFloat?
  | _ => none

/-- A whole number of 64 bits. -/
def asWord : Json → Option UInt64
  | .number n => n.toWord?
  | _ => none

/-- Null denotes absence. -/
def nullable {α : Type} (f : Json → Option α) : Json → Option (Option α)
  | .null => some none
  | j => (f j).map some

/-- All results of a list of reads, if none fails. -/
def sequence {α β : Type} (f : α → Option β) : List α → Option (List β)
  | [] => some []
  | a :: as =>
    match f a with
    | none => none
    | some b =>
      match sequence f as with
      | none => none
      | some bs => some (b :: bs)

def asList {α : Type} (f : Json → Option α) : Json → Option (List α)
  | .array js => sequence f js
  | _ => none

def asSet {κ : Type} [Ord κ] [Std.TransOrd κ] (f : Json → Option κ) (j : Json) :
    Option (OrderedSet κ) :=
  (asList f j).map OrderedSet.ofList

def asMember {α : Type} (f : Json → Option α) (m : Literal × Json) : Option (String × α) :=
  match m.1.text?, f m.2 with
  | some k, some a => some (k, a)
  | _, _ => none

/-- An object as a map; a repeated key keeps its last value. -/
def asDict {α : Type} (f : Json → Option α) : Json → Option (Dict String α)
  | .object ms => (sequence (asMember f) ms).map Dict.ofList
  | _ => none

/-- A word of an enumeration, alone or as the only key of an object with the value null. -/
def asEnumerated {α : Type} (words : List (String × α)) : Json → Option α
  | .string l => l.text?.bind fun w => words.lookup w
  | .object [(l, .null)] => l.text?.bind fun w => words.lookup w
  | _ => none

/-- The value of a field, unless the field stands twice. -/
def field? (members : List (String × Json)) (name : String) : Option (Option Json) :=
  match members.filter fun m => m.1 == name with
  | [] => some none
  | [m] => some (some m.2)
  | _ => none

/-- The values of the named fields of a record, in the order of the names. -/
def fields? (names : List String) : Json → Option (List (Option Json))
  | .object ms =>
    match sequence (asMember some) ms with
    | some members => sequence (field? members) names
    | none => none
  | .array js =>
    if js.length ≤ names.length then
      some (js.map some ++ List.replicate (names.length - js.length) none)
    else none
  | _ => none

def required {α : Type} (f : Json → Option α) : Option Json → Option α
  | some j => f j
  | none => none

def defaulted {α : Type} (a : α) (f : Json → Option α) : Option Json → Option α
  | some j => f j
  | none => some a

/-- A field that is written only if it is present. -/
def present {α : Type} (name : String) (f : α → Json) : Option α → List (String × Json)
  | some a => [(name, f a)]
  | none => []

def ofSet {κ : Type} [Ord κ] (f : κ → Json) (s : OrderedSet κ) : Json :=
  ofList f s.toList

def ofDict {α : Type} (f : α → Json) (d : Dict String α) : Json :=
  record (d.entries.map fun e => (e.1, f e.2))

end Json

end Kinetics

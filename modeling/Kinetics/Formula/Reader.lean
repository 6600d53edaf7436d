import Kinetics.Fault
import Kinetics.Formula.Node
import Kinetics.Markup.Attribute

/-!
# Kinetics.Formula.Reader

Formulas from markup events. Open elements wait on a stack for their children and text; a closing
tag turns the innermost one into a node of the element around it. What stands inside an element
with an unknown tag is passed over, except that its references have to resolve.
-/

namespace Kinetics

namespace Formula

open Markup

/-- An open element with what it holds so far. -/
structure OpenElement where
  tag : String
  attributes : List (String × String)
  children : List Node
  text : List Char

namespace OpenElement

def knownTags : List String :=
  ["math", "mrow", "mfenced", "mfrac", "mi", "mn", "mo", "mspace", "msqrt", "msub", "msup", "mtext"]

def isKnown (tag : String) : Bool :=
  knownTags.contains tag

/-- The leaf that an element with a tag makes of its text. -/
def leaf? (tag : String) : Option (String → Node) :=
  match tag with
  | "mi" => some .identifier
  | "mn" => some .number
  | "mo" => some .operator
  | "mtext" => some .text
  | _ => none

/-- The value of an attribute, or a default. -/
def valueOf (f : OpenElement) (name absent : String) : String :=
  (f.attributes.lookup name).getD absent

/-- The node of an element with exactly two children. -/
def pair (f : OpenElement) (build : Node → Node → Node) : Except Fault Node :=
  match f.children with
  | [a, b] => .ok (build a b)
  | _ => .error (.notTwoChildren f.tag)

/-- The node of a closed element that is no leaf. -/
def container (f : OpenElement) : Except Fault Node :=
  match f.tag with
  | "math" => .ok (.row f.children)
  | "mrow" => .ok (.row f.children)
  | "mfenced" => .ok (.fenced (f.valueOf "open" "(") (f.valueOf "close" ")") f.children)
  | "msqrt" => .ok (.root f.children)
  | "mspace" => .ok (.space (f.valueOf "width" ""))
  | "mfrac" => f.pair .fraction
  | "msub" => f.pair .sub
  | "msup" => f.pair .sup
  | tag => .ok (.unknown tag)

/-- The node of a closed element. -/
def close (f : OpenElement) : Except Fault Node :=
  let text := String.ofList (Text.trim f.text)
  match leaf? f.tag with
  | some build =>
    if f.children.isEmpty then .ok (build text) else .error (.elementsInLeaf f.tag)
  | none => if Text.allBlank f.text then f.container else .error (.strayText text f.tag)

end OpenElement

/-- The state of reading: open elements, innermost first, finished top level nodes in order, and
the number of open elements that are passed over. -/
structure Builder where
  frames : List OpenElement
  roots : List Node
  skipping : Nat

namespace Builder

def initial : Builder :=
  ⟨[], [], 0⟩

def opening (b : Builder) (name attributes : List Char) : Except Fault Builder :=
  if 0 < b.skipping then .ok { b with skipping := b.skipping + 1 }
  else
    match attributes? attributes with
    | none => .error .illFormedMarkup
    | some as =>
      let tag := localName name
      .ok ⟨⟨tag, as, [], []⟩ :: b.frames, b.roots, if OpenElement.isKnown tag then 0 else 1⟩

/-- Puts a finished node into the innermost open element, or beside the other roots. -/
def attach (node : Node) (frames : List OpenElement) (roots : List Node) : Builder :=
  match frames with
  | f :: fs => ⟨{ f with children := f.children ++ [node] } :: fs, roots, 0⟩
  | [] => ⟨[], roots ++ [node], 0⟩

def closing (b : Builder) (name : List Char) : Except Fault Builder :=
  if 1 < b.skipping then .ok { b with skipping := b.skipping - 1 }
  else
    match b.frames with
    | [] => .error (.closesNothing (localName name))
    | f :: fs =>
      if f.tag = localName name then
        match f.close with
        | .error e => .error e
        | .ok node => .ok (attach node fs b.roots)
      else .error (.closedBy f.tag (localName name))

def text (b : Builder) (cs : List Char) : Except Fault Builder :=
  if 0 < b.skipping then .ok b
  else
    match b.frames with
    | f :: fs => .ok { b with frames := { f with text := f.text ++ cs } :: fs }
    | [] =>
      if Text.allBlank cs then .ok b
      else .error (.textOutside (String.ofList (Text.trim cs)))

def step (b : Builder) : Event → Except Fault Builder
  | .opening name attributes => b.opening name attributes
  | .single name attributes =>
    match b.opening name attributes with
    | .error e => .error e
    | .ok b => b.closing name
  | .closing name => b.closing name
  | .text cs => b.text cs
  | .reference name =>
    match resolve? name with
    | some c => b.text [c]
    | none => .error .illFormedMarkup
  | .verbatim cs => b.text cs

def run (b : Builder) : List Event → Except Fault Builder
  | [] => .ok b
  | e :: es =>
    match b.step e with
    | .error e => .error e
    | .ok b => b.run es

/-- The formula when all is read; several roots form a row. -/
def finish (b : Builder) : Except Fault Node :=
  match b.frames with
  | f :: _ => .error (.neverClosed f.tag)
  | [] =>
    match b.roots with
    | [] => .error .noRoot
    | [node] => .ok node
    | nodes => .ok (.row nodes)

theorem run_append (b : Builder) (es fs : List Event) :
    b.run (es ++ fs) =
      match b.run es with
      | .error e => .error e
      | .ok b => b.run fs := by
  induction es generalizing b with
  | nil => rfl
  | cons e es ih =>
    simp only [List.cons_append, run]
    cases b.step e with
    | error e => rfl
    | ok b => exact ih b

end Builder

/-- The formula of a markup text. -/
def parse (markup : String) : Except Fault Node :=
  let document := events markup.toList
  match Builder.initial.run document.1 with
  | .error e => .error e
  | .ok b => if document.2 then b.finish else .error .illFormedMarkup

end Formula

end Kinetics

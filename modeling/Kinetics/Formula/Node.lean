import Kinetics.Text.Blank

/-!
# Kinetics.Formula.Node

Formulas as trees of presentation elements. A row may be a call form, which its first child, an
operator with a reserved keyword, decides; a fence with square brackets is optional, its content
being part of the formula only if a model has the variables it uses.
-/

namespace Kinetics

namespace Formula

inductive Node where
  | row (children : List Node)
  | fenced (opener closer : String) (children : List Node)
  | fraction (numerator denominator : Node)
  | sub (base index : Node)
  | sup (base exponent : Node)
  | root (children : List Node)
  | identifier (name : String)
  | number (digits : String)
  | operator (symbol : String)
  | space (width : String)
  | text (content : String)
  /-- an element that is not understood; it means nothing -/
  | unknown (tag : String)

/-- The reserved call forms. -/
inductive Keyword where
  | index
  | len
  | exp
  | sum
  | product
  | max
  | matmul
  deriving DecidableEq

namespace Keyword

def all : List Keyword :=
  [.index, .len, .exp, .sum, .product, .max, .matmul]

/-- The operator that starts the call form. -/
def word : Keyword → String
  | .index => "["
  | .len => "len"
  | .exp => "exp"
  | .sum => "∑"
  | .product => "∏"
  | .max => "max"
  | .matmul => "matmul"

/-- The keyword an operator is, blanks around it aside. -/
def ofOperator? (symbol : String) : Option Keyword :=
  all.find? fun k => k.word == Text.trimString symbol

end Keyword

namespace Node

def isOperator (symbol : String) : Node → Bool
  | .operator s => s == symbol
  | _ => false

def isUnknown : Node → Bool
  | .unknown _ => true
  | _ => false

def isSpace : Node → Bool
  | .space _ => true
  | _ => false

/-- The keyword that the children of a row start with. -/
def headKeyword? : List Node → Option Keyword
  | .operator s :: _ => Keyword.ofOperator? s
  | _ => none

/-- Whether the fences mark an optional part. -/
def isOptional (opener closer : String) : Bool :=
  opener == "[" && closer == "]"

/-- The content in parentheses, as one row. -/
def group (children : List Node) : Node :=
  .fenced "(" ")" [.row children]

end Node

end Formula

end Kinetics

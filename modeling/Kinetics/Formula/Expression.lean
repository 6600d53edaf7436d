import Kinetics.Code.Normal
import Kinetics.Dict
import Kinetics.Formula.Fragment
import Kinetics.Formula.Juxtaposition
import Kinetics.Formula.Reader

/-!
# Kinetics.Formula.Expression

Compiled formulas. An expression keeps its fragments; its code and its free symbols are read off
them, and rendering with a substitution replaces every symbol as a whole before the line is
brought into normal form. An expression without code is nought.
-/

namespace Kinetics

namespace Formula

structure Expression where
  fragments : List Fragment
  /-- the tags of unknown elements that were passed over -/
  skipped : List String
  deriving DecidableEq

namespace Fragment

/-- The text of a fragment when symbols are replaced. -/
def render (substitute : String → String) : Fragment → String
  | .symbol name suffix => substitute name ++ suffix
  | .text code => code

def symbol? : Fragment → Option String
  | .symbol name _ => some name
  | .text _ => none

end Fragment

namespace Expression

def freeSymbols (e : Expression) : NameSet :=
  OrderedSet.ofList (e.fragments.filterMap Fragment.symbol?)

/-- The fragments one after the other, before normalization. -/
def rawLine (substitute : String → String) (e : Expression) : String :=
  Text.joinWith " " (e.fragments.map (Fragment.render substitute))

/-- The code with every symbol replaced. -/
def render (substitute : String → String) (e : Expression) : String :=
  let code := Code.normalizeString (e.rawLine substitute)
  if code.isEmpty then "0" else code

def code (e : Expression) : String :=
  e.render id

end Expression

/-- Compiles a formula; every symbol gets the suffix. -/
def Node.compile (suffix : String) (n : Node) : Except Fault Expression :=
  match n.explicit.fragments suffix with
  | .error e => .error e
  | .ok fragments => .ok ⟨fragments, n.explicit.skippedTags⟩

/-- Compiles markup. -/
def compile (suffix markup : String) : Except Fault Expression :=
  match parse markup with
  | .error e => .error e
  | .ok n => n.compile suffix

/-- Takes off rows that hold nothing but one row. -/
def Node.unwrap : Node → Node
  | .row [.row children] => unwrap (.row children)
  | n => n

/-- The parts of an assignment. -/
structure Assignment where
  target : Option Node
  value : Node

/-- Splits a formula at its first equals sign; without one it is all value. -/
def Node.split (n : Node) : Assignment :=
  match n.unwrap with
  | .row children =>
    match children.span fun c => !c.isOperator "=" with
    | (target, _ :: value) => ⟨some (.row target), .row value⟩
    | (_, []) => ⟨none, .row children⟩
  | m => ⟨none, m⟩

/-- A result with the tags of the unknown elements passed over on the way. -/
structure Noted (α : Type) where
  result : α
  skipped : List String

/-- What a variable is written as; its symbol is plain text or markup. -/
def readSymbol (symbol : String) : Except Fault (Noted String) :=
  match Text.trim symbol.toList with
  | '<' :: r =>
    match compile "" (String.ofList ('<' :: r)) with
    | .error e => .error e
    | .ok e => .ok ⟨e.code, e.skipped⟩
  | cs => .ok ⟨String.ofList cs, []⟩

end Formula

end Kinetics

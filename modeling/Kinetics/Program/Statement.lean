import Kinetics.Program.Literal
import Kinetics.Space.Access

/-!
# Kinetics.Program.Statement

Statements of generated programs. Those that carry model data, assignments to places, reads of the
parameter table and entries of the result, keep it apart from their text; the rest is a line of
code. A block is a header with its body one level further in.
-/

namespace Kinetics

namespace Program

inductive Statement where
  | blank
  | line (code : String)
  | assign (place : Place) (value : String)
  /-- reads an entry of the parameter table -/
  | read (place : Place) (key : ParameterIndex)
  /-- stores a row of the solution under a key of the result -/
  | store (key : ParameterIndex) (row : String)
  | block (header : String) (body : List Statement)

namespace Statement

/-- Assigns all that a name stands for. -/
def define (name value : String) : Statement :=
  .assign (.whole name) value

def indent : Nat → String
  | 0 => ""
  | level + 1 => "    " ++ indent level

mutual

/-- The lines of a statement at a level. -/
def lines (level : Nat) : Statement → List String
  | .blank => [""]
  | .line code => [indent level ++ code]
  | .assign place value => [indent level ++ place.code ++ " = " ++ value]
  | .read place key =>
    [indent level ++ place.code ++ " = _value(parameter_table, " ++ indexLiteral key ++ ")"]
  | .store key row => [indent level ++ "result[" ++ indexLiteral key ++ "] = " ++ row]
  | .block header body => (indent level ++ header) :: linesOf (level + 1) body

def linesOf (level : Nat) : List Statement → List String
  | [] => []
  | s :: ss => lines level s ++ linesOf level ss

end

/-- The text of a program; every line ends with a line feed. -/
def source (ss : List Statement) : String :=
  String.join ((linesOf 0 ss).map fun l => l ++ "\n")

mutual

/-- The keys of the parameter table that a statement reads. -/
def keysRead : Statement → List ParameterIndex
  | .read _ key => [key]
  | .block _ body => keysReadBy body
  | _ => []

def keysReadBy : List Statement → List ParameterIndex
  | [] => []
  | s :: ss => keysRead s ++ keysReadBy ss

end

end Statement

end Program

end Kinetics

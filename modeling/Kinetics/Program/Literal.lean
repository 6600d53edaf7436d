import Kinetics.Decimal.Style
import Kinetics.Parameter.Index
import Kinetics.Text.Identifier
import Kinetics.Text.Lines

/-!
# Kinetics.Program.Literal

Names and literals of generated programs. A name replaces what no identifier can hold, gets a low
line in front if it would not start one, and one behind if the language or the program itself
reserves it. A string literal stands in single quotes and escapes those, backslashes and line
feeds.
-/

namespace Kinetics

namespace Program

open Text

/-- The names that the program imports and the words of the language. -/
def reservedNames : List String :=
  ["np", "solve_ivp", "solve_bvp", "interp1d", "False", "None", "True", "and", "as", "assert",
    "async", "await", "break", "class", "continue", "def", "del", "elif", "else", "except",
    "finally", "for", "from", "global", "if", "import", "in", "is", "lambda", "nonlocal", "not",
    "or", "pass", "raise", "return", "try", "while", "with", "yield"]

/-- Puts a low line in front of what does not start a name. -/
def startName (cs : List Char) : List Char :=
  match cs with
  | c :: _ => if c = '_' || isIdentifierStart c then cs else '_' :: cs
  | [] => ['_']

/-- The name of a symbol in the program. -/
def nameOf (symbol : String) : String :=
  let plain := symbol.toList.map fun c => if isIdentifierContinue c then c else '_'
  let name := String.ofList (startName plain)
  if reservedNames.contains name then name ++ "_" else name

/-- A character as it stands in a string literal. -/
def escape (c : Char) : List Char :=
  if c = '\\' then ['\\', '\\']
  else if c = '\'' then ['\\', '\'']
  else if c = '\n' then ['\\', 'n']
  else [c]

def stringLiteral (s : String) : String :=
  String.ofList ('\'' :: s.toList.flatMap escape ++ ['\''])

def floatLiteral (x : Float) : String :=
  Decimal.programText "np.nan" "np.inf" "-np.inf" x

def optionalLiteral : Option String → String
  | some s => stringLiteral s
  | none => "None"

/-- An index as a tuple of its five parts. -/
def indexLiteral (i : ParameterIndex) : String :=
  "(" ++ joinWith ", " [stringLiteral i.name, optionalLiteral i.phase, optionalLiteral i.stream,
    optionalLiteral i.reaction, optionalLiteral i.species] ++ ")"

/-- The extents of an array as a tuple. -/
def shapeLiteral : List Nat → String
  | [n] => "(" ++ toString n ++ ",)"
  | ns => "(" ++ joinWith ", " (ns.map toString) ++ ")"

end Program

end Kinetics

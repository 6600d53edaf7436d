import Kinetics.Json.Value

/-!
# Kinetics.Json.Printer

The text of a JSON value: compact, without any blank, or pretty, with one item a line and two
blanks of indentation a level. Empty arrays and objects take one line in both.
-/

namespace Kinetics

namespace Json

def quote (l : Literal) : List Char :=
  '"' :: l.raw ++ ['"']

mutual

/-- The compact text of a value. -/
def compact : Json → List Char
  | .null => "null".toList
  | .bool true => "true".toList
  | .bool false => "false".toList
  | .number n => n.text true
  | .string l => quote l
  | .array items => '[' :: compactItems items
  | .object members => '\x7b' :: compactMembers members

/-- The items of an array and its closing bracket. -/
def compactItems : List Json → List Char
  | [] => [']']
  | j :: js => compact j ++ compactMoreItems js

def compactMoreItems : List Json → List Char
  | [] => [']']
  | j :: js => ',' :: compact j ++ compactMoreItems js

/-- The members of an object and its closing brace. -/
def compactMembers : List (Literal × Json) → List Char
  | [] => ['\x7d']
  | (l, j) :: ms => quote l ++ ':' :: compact j ++ compactMoreMembers ms

def compactMoreMembers : List (Literal × Json) → List Char
  | [] => ['\x7d']
  | (l, j) :: ms => ',' :: quote l ++ ':' :: compact j ++ compactMoreMembers ms

end

/-- A line feed and the indentation of a level. -/
def newLine (level : Nat) : List Char :=
  '\n' :: List.replicate (2 * level) ' '

mutual

/-- The pretty text of a value that stands at a level. -/
def prettyAt (level : Nat) : Json → List Char
  | .null => "null".toList
  | .bool true => "true".toList
  | .bool false => "false".toList
  | .number n => n.text true
  | .string l => quote l
  | .array [] => ['[', ']']
  | .array (j :: js) =>
    '[' :: newLine (level + 1) ++ prettyAt (level + 1) j ++ prettyMoreItems level js
  | .object [] => ['\x7b', '\x7d']
  | .object ((l, j) :: ms) =>
    '\x7b' :: newLine (level + 1) ++ quote l ++ ':' :: ' ' :: prettyAt (level + 1) j ++
      prettyMoreMembers level ms

def prettyMoreItems (level : Nat) : List Json → List Char
  | [] => newLine level ++ [']']
  | j :: js => ',' :: newLine (level + 1) ++ prettyAt (level + 1) j ++ prettyMoreItems level js

def prettyMoreMembers (level : Nat) : List (Literal × Json) → List Char
  | [] => newLine level ++ ['\x7d']
  | (l, j) :: ms =>
    ',' :: newLine (level + 1) ++ quote l ++ ':' :: ' ' :: prettyAt (level + 1) j ++
      prettyMoreMembers level ms

end

def pretty (j : Json) : String :=
  String.ofList (prettyAt 0 j)

def text (j : Json) : String :=
  String.ofList (compact j)

end Json

end Kinetics

/-!
# Kinetics.Text.Lines

The lines of a text. A line feed ends a line and takes one carriage return before it along; a last
line without a line feed counts if it has a character, and keeps its carriage returns.
-/

namespace Kinetics

namespace Text

/-- Takes one carriage return off the front of a reversed line. -/
def dropReturn : List Char → List Char
  | '\r' :: r => r
  | cs => cs

/-- The lines of a text whose first characters are already gathered, last character first. -/
def linesFrom (gathered : List Char) : List Char → List (List Char)
  | [] => if gathered.isEmpty then [] else [gathered.reverse]
  | c :: r =>
    if c = '\n' then (dropReturn gathered).reverse :: linesFrom [] r
    else linesFrom (c :: gathered) r

def lines (cs : List Char) : List (List Char) :=
  linesFrom [] cs

def joinLines (ls : List (List Char)) : List Char :=
  List.intercalate ['\n'] ls

/-- Texts one after the other with a separator between neighbours. -/
def joinWith (separator : String) (parts : List String) : String :=
  separator.intercalate parts

end Text

end Kinetics

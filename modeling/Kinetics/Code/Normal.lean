import Kinetics.Code.Lexer
import Kinetics.Code.Grouping
import Kinetics.Code.Printer
import Kinetics.Text.Lines

/-!
# Kinetics.Code.Normal

The normal form of generated code: uniform spacing, no doubled grouping and no grouping around
atomic terms. Lines are treated one by one and keep their indentation; string literals and
comments pass through untouched.
-/

namespace Kinetics

namespace Code

open Text

/-- The tokens of a line without redundant grouping. -/
def normalTokens (body : List Char) : List Token :=
  strip (collapse none (lex body))

def normalizeLine (line : List Char) : List Char :=
  if (lex (trimStart line)).isEmpty then []
  else indentation line ++ print (normalTokens (trimStart line))

/-- The normal form of a text, without the blanks at its end. -/
def normalize (code : List Char) : List Char :=
  trimEnd (joinLines ((lines code).map normalizeLine))

/-- The normal form of a string of code. -/
def normalizeString (code : String) : String :=
  String.ofList (normalize code.toList)

end Code

end Kinetics

import Kinetics.Text.Blank
import Kinetics.Text.Identifier

/-!
# Kinetics.Code.Token

The tokens of one line of generated code. A lexeme keeps its characters, so printing a token never
alters it; brackets and separators carry no text.
-/

namespace Kinetics

namespace Code

inductive Bracket where
  | round
  | square
  | curly
  deriving DecidableEq

inductive Token where
  | name (lexeme : List Char)
  | number (lexeme : List Char)
  | quoted (lexeme : List Char)
  | operator (lexeme : List Char)
  | opening (b : Bracket)
  | closing (b : Bracket)
  | comma
  | colon
  | comment (lexeme : List Char)
  deriving DecidableEq

namespace Token

def isOperator : Token → Bool
  | .operator _ => true
  | _ => false

/-- An opening bracket right after such a token is a call or a subscript. -/
def takesBracket : Token → Bool
  | .name _ => true
  | .closing _ => true
  | .quoted _ => true
  | _ => false

end Token

def Bracket.opener : Bracket → Char
  | .round => '('
  | .square => '['
  | .curly => '{'

def Bracket.closer : Bracket → Char
  | .round => ')'
  | .square => ']'
  | .curly => '}'

def opening? (c : Char) : Option Bracket :=
  if c = '(' then some .round
  else if c = '[' then some .square
  else if c = '{' then some .curly
  else none

def closing? (c : Char) : Option Bracket :=
  if c = ')' then some .round
  else if c = ']' then some .square
  else if c = '}' then some .curly
  else none

/-- The characters of a token. -/
def Token.text : Token → List Char
  | .name s => s
  | .number s => s
  | .quoted s => s
  | .operator s => s
  | .opening b => [b.opener]
  | .closing b => [b.closer]
  | .comma => [',']
  | .colon => [':']
  | .comment s => s

end Code

end Kinetics

import Kinetics.Code.Token

/-!
# Kinetics.Code.Printer

A token list as a line. Spacing depends on a token, the one before it, and whether that one is a
sign: a plus or minus at the start or after an operator, an opening bracket or a separator.
-/

namespace Kinetics

namespace Code

def isPlusOrMinus : Token → Bool
  | .operator s => s == ['-'] || s == ['+']
  | _ => false

/-- Whether a token is a sign of what follows it. -/
def isSign (before : Option Token) (t : Token) : Bool :=
  isPlusOrMinus t &&
    match before with
    | none => true
    | some (.operator _) => true
    | some (.opening _) => true
    | some .comma => true
    | some .colon => true
    | some _ => false

/-- Whether a blank stands between two neighbours, the first of which is a sign or not. -/
def spaced (before : Token) (afterSign : Bool) (t : Token) : Bool :=
  match before, t with
  | .comma, .colon => true
  | _, .closing _ => false
  | _, .comma => false
  | _, .colon => false
  | .opening _, _ => false
  | .colon, _ => false
  | .comma, _ => true
  | p, .opening _ => !p.takesBracket && !(p.isOperator && afterSign)
  | .operator _, _ => !afterSign
  | _, _ => true

def printFrom (before : Token) (afterSign : Bool) : List Token → List Char
  | [] => []
  | t :: r =>
    (if spaced before afterSign t then [' '] else []) ++ t.text ++
      printFrom t (isSign (some before) t) r

/-- The line of a token list. -/
def print : List Token → List Char
  | [] => []
  | t :: r => t.text ++ printFrom t (isSign none t) r

end Code

end Kinetics

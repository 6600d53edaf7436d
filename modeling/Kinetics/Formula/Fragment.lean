import Kinetics.Fault
import Kinetics.Formula.Node
import Kinetics.Text.Identifier

/-!
# Kinetics.Formula.Fragment

Formulas as a line of code in pieces. Symbols stay apart from the text between them, so a symbol
can be replaced later as a whole. Fractions, roots and powers put their parts into parentheses; a
subscript, and a superscript that is a star, make one compound symbol.
-/

namespace Kinetics

namespace Formula

inductive Fragment where
  | symbol (name suffix : String)
  | text (code : String)
  deriving DecidableEq

/-- Glyphs of constants and their code. -/
def constants : List (String × String) :=
  [("π", "np.pi"), ("∞", "np.inf")]

/-- Glyphs of operators and their code; function application has none. -/
def operators : List (String × String) :=
  [("×", "*"), ("·", "*"), ("⋅", "*"), ("∗", "*"), ("\u2062", "*"), ("−", "-"), ("÷", "/"),
    ("∕", "/"), ("≤", "<="), ("≥", ">="), ("≠", "!="), ("\u2061", "")]

def operatorCode (symbol : String) : String :=
  (operators.lookup symbol).getD symbol

namespace Node

/-- Whether an exponent is a star, which marks a symbol and is no power. -/
def isAsterisk : Node → Bool
  | .operator s => operatorCode (Text.trimString s) == "*"
  | .text s => operatorCode (Text.trimString s) == "*"
  | .identifier s => operatorCode (Text.trimString s) == "*"
  | .row [n] => isAsterisk n
  | _ => false

/-- The part of a compound symbol that a leaf gives: its characters without blanks, and a low line
for each that no identifier can hold. -/
def leafName (s : String) : String :=
  String.ofList ((s.toList.filter fun c => !Text.isBlank c).map fun c =>
    if Text.isIdentifierContinue c then c else '_')

mutual

/-- The name of a compound symbol. -/
def compoundName : Node → String
  | .sub base index => compoundName base ++ "_" ++ compoundName index
  | .sup base exponent =>
    if isAsterisk exponent then compoundName base ++ "_star"
    else compoundName base ++ compoundName exponent
  | .row children => compoundNames children
  | .root children => compoundNames children
  | .fenced _ _ children => compoundNames children
  | .fraction a b => compoundName a ++ compoundName b
  | .identifier s => leafName s
  | .number s => leafName s
  | .operator s => leafName s
  | .text s => leafName s
  | .space _ => ""
  | .unknown _ => ""

def compoundNames : List Node → String
  | [] => ""
  | n :: ns => compoundName n ++ compoundNames ns

end

/-- The fault of a call form with the given arguments, if there is one. -/
def checkArguments (keyword : Keyword) (arguments : List Node) : Except Fault Unit :=
  match keyword with
  | .index =>
    if 2 ≤ arguments.length && arguments.getLast?.any (isOperator "]") then .ok ()
    else .error .unclosedIndex
  | .sum => if arguments.isEmpty then .error (.noOperand keyword.word) else .ok ()
  | .product => if arguments.isEmpty then .error (.noOperand keyword.word) else .ok ()
  | .len => count 1
  | .exp => count 1
  | .max => count 2
  | .matmul => count 2
where
  count (n : Nat) : Except Fault Unit :=
    if arguments.length = n then .ok ()
    else .error (.argumentCount keyword.word n arguments.length)

/-- The code of a call form from that of its arguments. -/
def callCode (keyword : Keyword) (arguments : List (List Fragment)) : List Fragment :=
  match keyword with
  | .index => .text "[" :: arguments.flatten
  | .len => .text "len(" :: arguments.flatten ++ [.text ")"]
  | .exp => .text "np.exp(" :: arguments.flatten ++ [.text ")"]
  | .sum => .text "np.sum(" :: arguments.flatten ++ [.text ")"]
  | .product => .text "np.prod(" :: arguments.flatten ++ [.text ")"]
  | .max => .text "np.maximum(" :: (arguments.intersperse [.text ","]).flatten ++ [.text ")"]
  | .matmul => .text "np.matmul(" :: (arguments.intersperse [.text ","]).flatten ++ [.text ")"]

/-- Fragments in parentheses. -/
def parenthesized (fs : List Fragment) : List Fragment :=
  .text "(" :: fs ++ [.text ")"]

mutual

/-- The code of a formula whose signs of multiplication are written. -/
def fragments (suffix : String) : Node → Except Fault (List Fragment)
  | .row children =>
    match headKeyword? children with
    | none =>
      match fragmentsEach suffix children with
      | .error e => .error e
      | .ok parts => .ok parts.flatten
    | some keyword =>
      match checkArguments keyword children.tail with
      | .error e => .error e
      | .ok _ =>
        match fragmentsEach suffix children with
        | .error e => .error e
        | .ok parts => .ok (callCode keyword parts.tail)
  | .fenced opener closer children =>
    match fragmentsEach suffix children with
    | .error e => .error e
    | .ok parts =>
      .ok (.text opener :: (parts.intersperse [.text ","]).flatten ++ [.text closer])
  | .fraction a b =>
    match fragments suffix a with
    | .error e => .error e
    | .ok fa =>
      match fragments suffix b with
      | .error e => .error e
      | .ok fb => .ok (parenthesized fa ++ .text "/" :: parenthesized fb)
  | .root children =>
    match fragmentsEach suffix children with
    | .error e => .error e
    | .ok parts => .ok (parenthesized parts.flatten ++ [.text "**", .text "0.5"])
  | .sub base index => .ok [.symbol (compoundName (.sub base index)) suffix]
  | .sup base exponent =>
    if isAsterisk exponent then .ok [.symbol (compoundName (.sup base exponent)) suffix]
    else
      match fragments suffix base with
      | .error e => .error e
      | .ok fb =>
        match fragments suffix exponent with
        | .error e => .error e
        | .ok fe => .ok (parenthesized fb ++ .text "**" :: parenthesized fe)
  | .identifier s =>
    match constants.lookup s with
    | some code => .ok [.text code]
    | none => .ok [.symbol s suffix]
  | .number s => .ok [.text ((constants.lookup s).getD s)]
  | .operator s => if operatorCode s = "" then .ok [] else .ok [.text (operatorCode s)]
  | .text s =>
    if Text.allBlank s.toList then .ok [] else .ok [.text (Text.trimString s)]
  | .space _ => .ok []
  | .unknown _ => .ok []

/-- The code of each of a list of siblings. -/
def fragmentsEach (suffix : String) : List Node → Except Fault (List (List Fragment))
  | [] => .ok []
  | n :: ns =>
    match fragments suffix n with
    | .error e => .error e
    | .ok fs =>
      match fragmentsEach suffix ns with
      | .error e => .error e
      | .ok parts => .ok (fs :: parts)

end

mutual

/-- The tags of the unknown elements that compiling comes across. -/
def skippedTags : Node → List String
  | .row children => skippedAmong children
  | .fenced _ _ children => skippedAmong children
  | .root children => skippedAmong children
  | .fraction a b => skippedTags a ++ skippedTags b
  | .sup a b => if isAsterisk b then [] else skippedTags a ++ skippedTags b
  | .unknown tag => [tag]
  | .sub _ _ => []
  | .identifier _ => []
  | .number _ => []
  | .operator _ => []
  | .space _ => []
  | .text _ => []

def skippedAmong : List Node → List String
  | [] => []
  | n :: ns => skippedTags n ++ skippedAmong ns

end

end Node

end Formula

end Kinetics

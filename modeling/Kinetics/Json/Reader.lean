import Kinetics.Json.Lexeme

/-!
# Kinetics.Json.Reader

JSON values from lexemes. A text is one value with nothing after it but blanks. Every call of the
reader works on fewer lexemes or descends one level, so the fuel that `parse?` gives it, computed
from the number of lexemes, is never used up.
-/

namespace Kinetics

namespace Json

mutual

/-- The value at the front of a list of lexemes, and what follows it. -/
def readValue : Nat → List Lexeme → Option (Json × List Lexeme)
  | 0, _ => none
  | _ + 1, .null :: r => some (.null, r)
  | _ + 1, .bool b :: r => some (.bool b, r)
  | _ + 1, .number n :: r => some (.number n, r)
  | _ + 1, .string l :: r => some (.string l, r)
  | _ + 1, .openArray :: .closeArray :: r => some (.array [], r)
  | fuel + 1, .openArray :: r =>
    match readItems fuel r with
    | some (js, r) => some (.array js, r)
    | none => none
  | _ + 1, .openObject :: .closeObject :: r => some (.object [], r)
  | fuel + 1, .openObject :: r =>
    match readMembers fuel r with
    | some (ms, r) => some (.object ms, r)
    | none => none
  | _, _ => none

/-- At least one item, and the bracket that closes the array. -/
def readItems : Nat → List Lexeme → Option (List Json × List Lexeme)
  | 0, _ => none
  | fuel + 1, ls =>
    match readValue fuel ls with
    | some (j, .comma :: r) =>
      match readItems fuel r with
      | some (js, r) => some (j :: js, r)
      | none => none
    | some (j, .closeArray :: r) => some ([j], r)
    | _ => none

/-- At least one member, and the brace that closes the object. -/
def readMembers : Nat → List Lexeme → Option (List (Literal × Json) × List Lexeme)
  | 0, _ => none
  | fuel + 1, .string l :: .colon :: r =>
    match readValue fuel r with
    | some (j, .comma :: r) =>
      match readMembers fuel r with
      | some (ms, r) => some ((l, j) :: ms, r)
      | none => none
    | some (j, .closeObject :: r) => some ([(l, j)], r)
    | _ => none
  | _, _ => none

end

/-- The value of a text. -/
def parse? (text : String) : Option Json :=
  match lex text.toList with
  | none => none
  | some ls =>
    match readValue (2 * ls.length + 2) ls with
    | some (j, []) => some j
    | _ => none

end Json

end Kinetics

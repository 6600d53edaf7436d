import Kinetics.Decimal.Style
import Kinetics.Json.Literal

/-!
# Kinetics.Json.Value

JSON values. Numbers and strings keep their written form, so a value is read without loss and what
a number or string denotes is asked for later.
-/

namespace Kinetics

inductive Json where
  | null
  | bool (b : Bool)
  | number (n : Decimal.Numeral)
  | string (l : Json.Literal)
  | array (items : List Json)
  | object (members : List (Json.Literal × Json))

instance : Inhabited Json :=
  ⟨.null⟩

namespace Json

def ofString (s : String) : Json :=
  .string (Literal.ofString s)

/-- A number in the style of documents; what is not finite has no written form and is null. -/
def ofFloat (x : Float) : Json :=
  match Decimal.documentStyle.numeral? x with
  | some n => .number n
  | none => .null

def ofNat (n : Nat) : Json :=
  .number (Decimal.Numeral.ofNat n)

def ofOption {α : Type} (f : α → Json) : Option α → Json
  | some a => f a
  | none => .null

def ofList {α : Type} (f : α → Json) (as : List α) : Json :=
  .array (as.map f)

/-- An object from names and values. -/
def record (members : List (String × Json)) : Json :=
  .object (members.map fun m => (Literal.ofString m.1, m.2))

end Json

end Kinetics

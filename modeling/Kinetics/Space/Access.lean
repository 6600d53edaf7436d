import Kinetics.Formula.Expression
import Kinetics.Space.Point

/-!
# Kinetics.Space.Access

Arrays accessed at a point. Axes that the point fixes become positions, the others are taken whole,
and trailing whole axes are left out. A formula is indexed by replacing each bound symbol as a
whole, never a part of a longer one.
-/

namespace Kinetics

/-- The positions of an access, a whole axis being absent. -/
def accessPositions (s : Shape) (p : Point) : List (Option Nat) :=
  ((s.axes.map p.coordinate).reverse.dropWhile Option.isNone).reverse

def positionText : Option Nat → String
  | some i => toString i
  | none => ":"

/-- A name, or a part of the array behind it. -/
structure Place where
  name : String
  positions : List (Option Nat)
  deriving DecidableEq

/-- All that a name stands for. -/
def Place.whole (name : String) : Place :=
  ⟨name, []⟩

/-- The part of an array of a shape that a point addresses. -/
def Place.at (name : String) (s : Shape) (p : Point) : Place :=
  ⟨name, accessPositions s p⟩

def Place.code (p : Place) : String :=
  if p.positions.isEmpty then p.name
  else p.name ++ "[" ++ Text.joinWith ", " (p.positions.map positionText) ++ "]"

/-- The code that accesses an array of a shape at a point. -/
def accessCode (name : String) (s : Shape) (p : Point) : String :=
  (Place.at name s p).code

/-- How a symbol appears in a program: the name and the shape of its array. -/
structure Binding where
  name : String
  shape : Shape
  deriving DecidableEq

/-- What stands for a symbol at a point. -/
def Binding.substitute (bindings : Dict String Binding) (p : Point) (symbol : String) : String :=
  match bindings.find? symbol with
  | some b => accessCode b.name b.shape p
  | none => symbol

/-- The code of an expression at a point. -/
def Formula.Expression.indexed (e : Expression) (p : Point) (bindings : Dict String Binding) :
    String :=
  e.render (Binding.substitute bindings p)

end Kinetics

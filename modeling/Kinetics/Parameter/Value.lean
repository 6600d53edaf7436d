/-!
# Kinetics.Parameter.Value

Values of parameters, and the conversion to standard units. A value is one number or, where it
changes over time, a series of them. A unit multiplies by its ratio and then adds its intercept;
a ratio that is negligible counts as none.
-/

namespace Kinetics

inductive ParameterValue (R : Type) where
  | scalar (x : R)
  | series (xs : List R)
  deriving DecidableEq

namespace ParameterValue

variable {R : Type}

def map {S : Type} (f : R → S) : ParameterValue R → ParameterValue S
  | .scalar x => .scalar (f x)
  | .series xs => .series (xs.map f)

def scalar? : ParameterValue R → Option R
  | .scalar x => some x
  | .series _ => none

end ParameterValue

/-- A unit of measurement, relative to the standard unit of its quantity. -/
structure Scale (R : Type) where
  ratio : Option R
  intercept : Option R
  deriving DecidableEq

namespace Scale

variable {R : Type} [Mul R] [Add R]

/-- A number in standard units. -/
def toStandard (negligible : R → Bool) (s : Scale R) (x : R) : R :=
  let scaled :=
    match s.ratio with
    | some r => if negligible r then x else x * r
    | none => x
  match s.intercept with
  | some b => scaled + b
  | none => scaled

/-- A value in standard units; without a unit it stays. -/
def rescale (negligible : R → Bool) (unit : Option (Scale R)) (v : ParameterValue R) :
    ParameterValue R :=
  match unit with
  | some s => v.map (s.toStandard negligible)
  | none => v

end Scale

/-- A ratio of at most the distance from one to the next binary number counts as none. -/
def negligibleRatio (r : Float) : Bool :=
  r.abs ≤ 2.220446049250313e-16

end Kinetics

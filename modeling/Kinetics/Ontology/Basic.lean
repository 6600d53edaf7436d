import Kinetics.Dict
import Kinetics.Fault
import Kinetics.Parameter.Value

/-!
# Kinetics.Ontology.Basic

The ontology that models are built from: variables, the laws that relate them, and units. A law
belongs to a phenomenon, which a model selects, or it is definitional and applies wherever the
quantity it defines is needed.
-/

namespace Kinetics

inductive VariableRole where
  | constant
  | operationParameter
  | modelParameter
  | stateVariable
  | independentVariable
  | quantity
  deriving DecidableEq

structure Variable where
  role : VariableRole
  /-- a plain name or markup -/
  symbol : String
  unit : Option String
  dimensions : OrderedSet Dimension
  /-- the laws that can define the variable -/
  laws : NameSet
  fixedValue : Option Float

structure Law where
  formula : String
  phenomenon : Option String
  inputs : NameSet
  optionalInputs : NameSet
  /-- the law of the gas phase that comes with this one -/
  gasLaw : Option String
  solidLaw : Option String
  /-- the variable that is integrated over -/
  integralVariable : Option String
  upperLimit : Option String
  /-- the variable that is integrated -/
  differentialVariable : Option String
  /-- the formula that is integrated jointly with the accumulation law -/
  jointFormula : Option String

structure Ontology where
  quantities : Dict String Variable
  laws : Dict String Law
  units : Dict String (Scale Float)

def Law.isDefinitional (l : Law) : Bool :=
  l.phenomenon.isNone

/-- The law of a phase that comes with this one. -/
def Law.associated (l : Law) : Phase → Option String
  | .gas => l.gasLaw
  | .solid => l.solidLaw

namespace Ontology

def variableOf (o : Ontology) (name : String) : Except Fault Variable :=
  match o.quantities.find? name with
  | some v => .ok v
  | none => .error (.unknownVariable name)

def lawOf (o : Ontology) (name : String) : Except Fault Law :=
  match o.laws.find? name with
  | some l => .ok l
  | none => .error (.unknownLaw name)

/-- The unit of a variable, if it names one that the ontology has. -/
def unitOf (o : Ontology) (v : Variable) : Option (Scale Float) :=
  v.unit.bind o.units.find?

theorem variableOf_ok {o : Ontology} {name : String} {v : Variable} :
    o.variableOf name = .ok v ↔ o.quantities.find? name = some v := by
  unfold variableOf
  split <;> simp_all

theorem lawOf_ok {o : Ontology} {name : String} {l : Law} :
    o.lawOf name = .ok l ↔ o.laws.find? name = some l := by
  unfold lawOf
  split <;> simp_all

end Ontology

end Kinetics

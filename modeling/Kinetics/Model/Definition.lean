import Kinetics.Ontology.Basic

/-!
# Kinetics.Model.Definition

How a variable of a model gets its value, and the model that results from resolving a context: its
states, its active laws, its closed set of variables, and the order in which those computed from
laws are computed.
-/

namespace Kinetics

inductive Definition where
  /-- an input, read from the parameter table -/
  | leaf
  | constant
  /-- the variable that is integrated over -/
  | independent
  /-- integrated; the table holds its initial values -/
  | state (law : String)
  | derived (law : String)
  /-- computed for each reaction by its own law, by position of the reaction -/
  | perReaction (laws : Dict Nat String)
  deriving DecidableEq

namespace Definition

def isComputed : Definition → Bool
  | .derived _ => true
  | .perReaction _ => true
  | _ => false

/-- Whether the values come from the parameter table. -/
def isTabled : Definition → Bool
  | .leaf => true
  | .state _ => true
  | _ => false

def isState : Definition → Bool
  | .state _ => true
  | _ => false

/-- The laws that a definition draws on, in order. -/
def laws : Definition → List String
  | .state l => [l]
  | .derived l => [l]
  | .perReaction ls => (OrderedSet.ofList ls.values : NameSet).toList
  | _ => []

end Definition

/-- A quantity that is integrated: the main one, or one of a phase. -/
structure StateEquation where
  name : String
  law : String
  phase : Option Phase
  deriving DecidableEq

structure Model where
  accumulation : String
  integralVariable : String
  upperLimit : String
  /-- the main state first -/
  states : List StateEquation
  jointLaw : Option String
  activeLaws : NameSet
  /-- the variables that some active law or override defines -/
  selected : NameSet
  definitions : Dict String Definition
  /-- the computed variables, each after those it depends on -/
  order : List String
  deriving DecidableEq

def Model.isReactive (m : Model) : Bool :=
  m.definitions.values.any fun d =>
    match d with
    | .perReaction _ => true
    | _ => false

end Kinetics

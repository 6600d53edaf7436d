import Kinetics.Context.Basic
import Kinetics.Program.Formulas
import Kinetics.Program.Options

/-!
# Kinetics.Program.Plan

All that the text of a program is made from: the resolved model, what its variables are called,
where its states lie in the flat vector, and its compiled formulas.
-/

namespace Kinetics

namespace Program

structure Plan where
  ontology : Ontology
  kind : ModelKind
  options : SolverOptions
  topology : Topology
  model : Model
  names : Names
  formulas : Formulas
  states : List VectorBlock

/-- All that a function yields over a list, in order; the first fault ends it. -/
def collect {α β : Type} (f : α → Except Fault (List β)) : List α → Except Fault (List β)
  | [] => .ok []
  | a :: as => do
    let bs ← f a
    let rest ← collect f as
    return bs ++ rest

namespace Plan

def isDynamic (p : Plan) : Bool :=
  p.kind == .dynamic

/-- Whether the program solves a boundary value problem. -/
def isJoint (p : Plan) : Bool :=
  p.model.jointLaw.isSome

/-- What a variable is called in the program. -/
def nameIn (p : Plan) (variableName : String) : Except Fault String :=
  (p.names.entryOf variableName).map Binding.name

/-- Names and lays out what a resolved model consists of, and compiles its formulas. -/
def ofModel (o : Ontology) (kind : ModelKind) (options : SolverOptions) (t : Topology)
    (m : Model) : Except Fault (Formula.Noted Plan) := do
  let bound ← Names.bindAll o Names.empty m.definitions.keys
  let (names, states) ← VectorBlock.layAll t bound.result m.jointLaw.isSome 0 m.states
  let formulas ← Formulas.ofModel o m names
  return ⟨⟨o, kind, options, t, m, names, formulas.result, states⟩,
    bound.skipped ++ formulas.skipped⟩

/-- An operation parameter without a unit follows the time series, if it is one number and not the
series itself. -/
def followsTime (p : Plan) (name : String) (d : Definition) : Except Fault Bool := do
  let v ← p.ontology.variableOf name
  let b ← p.names.entryOf name
  return d == .leaf && v.role == .operationParameter && v.unit.isNone &&
    name != p.model.upperLimit && b.shape.isScalar

/-- The names of the inputs that follow the time series of a dynamic operation. -/
def interpolated (p : Plan) : Except Fault (List String) :=
  if p.isDynamic then
    collect
      (fun (name, d) => do
        if ← p.followsTime name d then return [← p.nameIn name] else return [])
      p.model.definitions.entries
  else .ok []

end Plan

end Program

end Kinetics

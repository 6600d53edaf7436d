import Kinetics.Program.Plan
import Kinetics.Program.Statement

/-!
# Kinetics.Program.Inputs

The first part of a program: it sets the constants, reads the inputs and the initial states from
the parameter table, sets up what follows the time series of a dynamic operation, and puts the
initial states in one flat vector.
-/

namespace Kinetics

namespace Program

open Statement

/-- The code of an array of zeros. -/
def zerosCode (t : Topology) (s : Shape) : String :=
  "np.zeros(" ++ shapeLiteral (t.extents s) ++ ")"

/-- What the initial values of a state are called. -/
def initialName (s : VectorBlock) : String :=
  "_y0_" ++ s.name

/-- What interpolates an input over the time series. -/
def interpolatorName (name : String) : String :=
  "_interp_" ++ name

/-- Reads a variable of a shape into a target, point by point. -/
def readsOf (t : Topology) (target variableName : String) (s : Shape) : List Statement :=
  if s.isScalar then [.read (.whole target) (.scalar variableName)]
  else
    define target (zerosCode t s) :: (t.points s).map fun q =>
      .read (.at target s q) (t.indexAt variableName q)

namespace VectorBlock

/-- The code of the initial values of a state's block, row by row; a flux starts at zero. -/
def initialCode (s : VectorBlock) : String :=
  let initial := initialName s
  match s.joint, s.extents with
  | false, _ => s!"np.ravel({initial})"
  | true, [] => s!"np.array([{initial}, 0.0])"
  | true, _ => s!"np.concatenate([{initial}, np.zeros_like({initial})], axis=-1).ravel()"

end VectorBlock

namespace Plan

/-- Sets a constant in standard units, at every point of its shape. -/
def setConstant (p : Plan) (variableName : String) : Except Fault Statement := do
  let v ← p.ontology.variableOf variableName
  match v.fixedValue with
  | none => .error (.noConstantValue variableName)
  | some x =>
    let value := floatLiteral ((p.ontology.unitOf v).elim x fun u => u.toStandard negligibleRatio x)
    let b ← p.names.entryOf variableName
    return define b.name <|
      if b.shape.isScalar then value
      else "np.full(" ++ shapeLiteral (p.topology.extents b.shape) ++ ", " ++ value ++ ")"

def setConstants (p : Plan) : Except Fault (List Statement) :=
  collect
    (fun (name, d) => do if d == .constant then return [← p.setConstant name] else return [])
    p.model.definitions.entries

/-- Reads every input. -/
def readInputs (p : Plan) : Except Fault (List Statement) :=
  collect
    (fun (name, d) => do
      if d == .leaf then
        let b ← p.names.entryOf name
        return readsOf p.topology b.name name b.shape
      else return [])
    p.model.definitions.entries

/-- Reads the initial values of every state. -/
def readStates (p : Plan) : List Statement :=
  p.states.flatMap fun s => readsOf p.topology (initialName s) s.variableName s.shape

/-- Sets up the time series and what is interpolated over it. -/
def interpolate (p : Plan) : Except Fault (List Statement) := do
  let upper ← p.nameIn p.model.upperLimit
  let names ← p.interpolated
  let series (name : String) := s!"np.broadcast_to(np.asarray({name}, dtype=float), _T.shape)"
  let start := [define "_T" s!"np.atleast_1d(np.asarray({upper}, dtype=float))",
    .block "if _T.size < 2:" [.line "return None"]]
  return start ++ names.map fun name =>
    define (interpolatorName name)
      ("interp1d(_T, " ++ series name ++ ", fill_value='extrapolate')")

/-- Puts the initial values of all states in one vector. -/
def setInitial (p : Plan) : Statement :=
  let parts := Text.joinWith ", " (p.states.map VectorBlock.initialCode)
  define "_y0" s!"np.asarray(np.concatenate([{parts}]), dtype=float)"

/-- Everything up to the initial vector. -/
def prepare (p : Plan) : Except Fault (List Statement) := do
  let constants ← p.setConstants
  let inputs ← p.readInputs
  let interpolation ← if p.isDynamic then p.interpolate else .ok []
  return constants ++ inputs ++ p.readStates ++ interpolation ++ [p.setInitial]

end Plan

end Program

end Kinetics

import Kinetics.Program.Inputs

/-!
# Kinetics.Program.Derivative

The function of a program that gives the derivative of the flat state vector. It takes the states
out of the vector, computes the variables of the model in their order, and puts the derivatives
together as the states lie in the vector. The derivative of a joint state is its flux.
-/

namespace Kinetics

namespace Program

open Statement

namespace VectorBlock

/-- What the derivative of a state is called. -/
def derivativeName (s : VectorBlock) : String :=
  "_d_" ++ s.name

def fluxName (s : VectorBlock) : String :=
  s.name ++ fluxSuffix

/-- Takes a state, and its flux if there is one, out of the flat vector. -/
def views (s : VectorBlock) : List Statement :=
  let block := s!"_y[{s.offset}:{s.offset + s.length}].reshape"
  match s.joint, s.extents.getLast? with
  | false, none => [define s.name s!"_y[{s.offset}]"]
  | false, some _ => [define s.name (block ++ "(" ++ shapeLiteral s.extents ++ ")")]
  | true, none =>
    [define s.name s!"_y[{s.offset}]", define s.fluxName s!"_y[{s.offset + 1}]"]
  | true, some n =>
    [define s!"_block_{s.name}" (block ++ "(" ++ shapeLiteral s.blockExtents ++ ")"),
      define s.name s!"_block_{s.name}[..., :{n}]",
      define s.fluxName s!"_block_{s.name}[..., {n}:]"]

/-- The code of the derivative of a state's block, row by row. -/
def derivativeCode (s : VectorBlock) : String :=
  let state := s.derivativeName
  let flux := state ++ fluxSuffix
  match s.joint, s.extents with
  | false, _ => s!"np.ravel({state})"
  | true, [] => s!"np.array([{state}, {flux}])"
  | true, _ => s!"np.concatenate([{state}, {flux}], axis=-1).ravel()"

end VectorBlock

namespace Plan

/-- The code of a law's formula at a point. -/
def codeAt (p : Plan) (law : String) (q : Point) : Except Fault String :=
  (p.formulas.get law (.unlisted law)).map fun e => e.indexed q p.names.bindings

/-- Assigns a target of a shape point by point, each point by its law; it is zero where there is
none. -/
def assignments (p : Plan) (target : String) (s : Shape) (lawAt : Point → Option String) :
    Except Fault (List Statement) :=
  if s.isScalar then
    match lawAt .origin with
    | none => .ok [define target "0.0"]
    | some law => do return [define target (← p.codeAt law .origin)]
  else do
    let points ← collect
      (fun q =>
        match lawAt q with
        | none => .ok []
        | some law => do return [.assign (.at target s q) (← p.codeAt law q)])
      (p.topology.points s)
    return define target (zerosCode p.topology s) :: points

/-- The law that computes a variable at a point. -/
def lawAt (d : Definition) (q : Point) : Option String :=
  match d with
  | .derived law => some law
  | .perReaction laws => q.reaction.bind laws.find?
  | _ => none

/-- Computes a variable of the model. -/
def compute (p : Plan) (variableName : String) : Except Fault (List Statement) := do
  let b ← p.names.entryOf variableName
  let d ← Formulas.definitionOf p.model variableName
  if d.isComputed then p.assignments b.name b.shape (lawAt d) else return []

/-- Computes the derivative of a state. -/
def differentiate (p : Plan) (s : VectorBlock) : Except Fault (List Statement) :=
  if s.joint then do
    let fluxLaw := p.model.jointLaw.map (· ++ fluxSuffix)
    let flux ← p.assignments (s.derivativeName ++ fluxSuffix) s.shape fun _ => fluxLaw
    return define s.derivativeName s.fluxName :: flux
  else p.assignments s.derivativeName s.shape fun _ => some s.law

/-- The statements that assign the variables of the model, in order. -/
def computations (p : Plan) : Except Fault (List Statement) :=
  collect p.compute p.model.order

/-- The body of the derivative. -/
def derivativeBody (p : Plan) : Except Fault (List Statement) := do
  let independent ← p.nameIn p.model.integralVariable
  let interpolated ← p.interpolated
  let computations ← p.computations
  let derivatives ← collect p.differentiate p.states
  let parts := Text.joinWith ", " (p.states.map VectorBlock.derivativeCode)
  return define independent "_t" ::
    interpolated.map (fun name => define name s!"float({interpolatorName name}(_t))") ++
    p.states.flatMap VectorBlock.views ++ computations ++ derivatives ++
    [.line s!"return np.concatenate([{parts}])"]

def derivative (p : Plan) : Except Fault Statement :=
  p.derivativeBody.map (.block "def derivative(_t, _y):")

end Plan

end Program

end Kinetics

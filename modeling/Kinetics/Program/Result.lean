import Kinetics.Program.Plan
import Kinetics.Program.Statement

/-!
# Kinetics.Program.Result

The last part of a program: it lists the rows of the solution under keys that name them. The
independent variable comes first, then every point of every state, each with its flux if there is
one.
-/

namespace Kinetics

namespace Program

namespace Plan

/-- The key of the independent variable, under its own name unless the options give another. -/
def independentKey (p : Plan) : ParameterIndex :=
  .scalar (p.options.independentKey.getD p.model.integralVariable)

/-- The keys of one point of a state, with the rows they stand for. -/
def rowsAt (t : Topology) (s : VectorBlock) (q : Point) : List (ParameterIndex × Nat) :=
  let place := s.cells t q
  (t.indexAt s.variableName q, place.1) ::
    (place.2.map fun row => (t.indexAt (s.variableName ++ fluxSuffix) q, row)).toList

/-- The keys of all states, with the rows they stand for. -/
def rows (p : Plan) : List (ParameterIndex × Nat) :=
  p.states.flatMap fun s => (p.topology.points s.shape).flatMap (rowsAt p.topology s)

/-- The keys of the result. -/
def resultKeys (p : Plan) : List ParameterIndex :=
  p.independentKey :: p.rows.map Prod.fst

/-- Stores all rows under their keys. -/
def storeResults (p : Plan) : List Statement :=
  [.line "result = \x7b\x7d", .store p.independentKey "_times"] ++
    p.rows.map (fun r => .store r.1 s!"_Y[{r.2}]") ++ [.line "return result"]

end Plan

end Program

end Kinetics

import Kinetics.Program.Inputs

/-!
# Kinetics.Program.Solver

The part of a program that solves for the states. A steady model is integrated in one go, a
dynamic one from each time of its series to the next, and a joint one is solved with its states
given at the inlet and its fluxes vanishing at the outlet.
-/

namespace Kinetics

namespace Program

open Statement

/-- Gives up when the solver did. -/
def checkSolution : Statement :=
  .block "if not sol.success or not np.all(np.isfinite(sol.y)):" [.line "return None"]

namespace SolverCode

/-- Integrates over a span from a start. -/
def integrate (o : SolverOptions) (span start : String) : Statement :=
  .line <| "sol = solve_ivp(derivative, " ++ span ++ ", " ++ start ++ ", method=" ++
    stringLiteral o.method ++ ", rtol=" ++ floatLiteral o.relativeTolerance ++ ", atol=" ++
    floatLiteral o.absoluteTolerance ++ ")"

/-- One integration up to the upper limit. -/
def single (o : SolverOptions) (upper : String) : List Statement :=
  [integrate o s!"(0.0, float({upper}))" "_y0", checkSolution, .line "_times, _Y = sol.t, sol.y"]

/-- One integration for each segment of the time series. -/
def segments (o : SolverOptions) : List Statement :=
  [.line "_y = _y0", .line "_times = [_T[:1]]", .line "_Ys = [_y0[:, None]]",
    .block "for _i in range(_T.size - 1):"
      [integrate o "(_T[_i], _T[_i + 1])" "_y", checkSolution, .line "_times.append(sol.t[1:])",
        .line "_Ys.append(sol.y[:, 1:])", .line "_y = sol.y[:, -1]"],
    .line "_times = np.concatenate(_times)", .line "_Y = np.concatenate(_Ys, axis=1)"]

/-- Marks the fluxes of a joint state in the mask of all states. -/
def maskFlux (s : VectorBlock) : List Statement :=
  if s.joint then
    match s.extents with
    | [] => [.line s!"_is_state[{s.offset + 1}] = False"]
    | _ =>
      let extents := shapeLiteral s.extents
      let states := s!"np.ones({extents}, dtype=bool)"
      let fluxes := s!"np.zeros({extents}, dtype=bool)"
      [.line (s!"_is_state[{s.offset}:{s.offset + s.length}] = " ++
        s!"np.concatenate([{states}, {fluxes}], axis=-1).ravel()")]
  else []

/-- The boundary value problem up to the upper limit. -/
def boundaryValues (o : SolverOptions) (upper : String) (states : List VectorBlock) :
    List Statement :=
  [.line "_is_state = np.ones(_y0.size, dtype=bool)"] ++ states.flatMap maskFlux ++
    [.blank,
      .block "def _columns(x, Y):"
        [.line "return np.column_stack([derivative(x[i], Y[:, i]) for i in range(x.size)])"],
      .blank,
      .block "def boundary(ya, yb):"
        [.line "# inlet state is given, outlet flux vanishes",
          .line "return np.where(_is_state, ya - _y0, yb)"],
      .blank,
      .line s!"_mesh = np.linspace(0.0, float({upper}), {o.meshPoints.toNat})",
      .line "_guess = np.repeat(_y0[:, None], _mesh.size, axis=1)",
      .line ("sol = solve_bvp(_columns, boundary, _mesh, _guess, tol=" ++
        floatLiteral o.boundaryTolerance ++ ")"),
      checkSolution,
      .line "_times, _Y = sol.x, sol.y"]

end SolverCode

/-- Solves for the states. -/
def Plan.solve (p : Plan) : Except Fault (List Statement) := do
  let upper ← p.nameIn p.model.upperLimit
  return if p.isJoint then SolverCode.boundaryValues p.options upper p.states
    else if p.isDynamic then SolverCode.segments p.options
    else SolverCode.single p.options upper

end Program

end Kinetics

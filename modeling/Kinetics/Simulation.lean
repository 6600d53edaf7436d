import Kinetics.Model.Resolve
import Kinetics.Parameter.Table
import Kinetics.Program.Derivative
import Kinetics.Program.Result
import Kinetics.Program.Solver
import Kinetics.Remark

/-!
# Kinetics.Simulation

A simulation program for a model context, together with the table of its inputs and the keys of
its result. The program defines one function, which takes a parameter table and gives a result, or
nothing where the solver fails. Any fault on the way leaves no program at all.
-/

namespace Kinetics

structure Simulation where
  statements : List Program.Statement
  table : ParameterTable
  /-- the keys of the result, the independent variable first -/
  resultKeys : List ParameterIndex
  remarks : List Remark

namespace Simulation

open Program

/-- The text of the program. -/
def source (s : Simulation) : String :=
  Statement.source s.statements

/-- What the program imports. -/
def imports (p : Plan) : List Statement :=
  [.line "import numpy as np",
    .line (if p.isJoint then "from scipy.integrate import solve_bvp"
      else "from scipy.integrate import solve_ivp")] ++
    if p.isDynamic then [.line "from scipy.interpolate import interp1d"] else []

/-- Looks up an entry of the parameter table, which has to have a value. -/
def lookUp : Statement :=
  .block "def _value(parameter_table, key):"
    [.line "value = parameter_table[key]",
      .block "if value is None:" [.line "raise ValueError('no value for %r' % (key,))"],
      .line "return value"]

/-- The statements of a program. -/
def statementsOf (p : Plan) : Except Fault (List Statement) := do
  let preparation ← p.prepare
  let derivative ← p.derivative
  let solution ← p.solve
  return imports p ++
    [.blank, .blank, lookUp, .blank, .blank,
      .block "def simulate(parameter_table):"
        (preparation ++ [.blank, derivative, .blank] ++ solution ++ p.storeResults)]

/-- A joint flow pattern is solved for the steady state only. -/
def checkKind (c : ModelContext) (m : Model) : Except Fault Unit :=
  if c.kind == .dynamic && m.jointLaw.isSome then .error .dynamicBoundaryValues else .ok ()

/-- Assembles the program of a context. -/
def assemble (o : Ontology) (c : ModelContext) (options : SolverOptions) :
    Except Fault Simulation := do
  c.validate
  let t ← Topology.ofPlant c.plant
  let m ← Model.resolve o c.selection t
  checkKind c m
  let table ← ParameterTable.build o c.knownValues t m
  let plan ← Plan.ofModel o c.kind options t m
  let statements ← statementsOf plan.result
  return {
    statements := statements
    table := table
    resultKeys := plan.result.resultKeys
    remarks :=
      (Model.unmatched o c.selection t).map .unmatchedPhenomenon ++
      (ParameterTable.ignoredValues o c.knownValues t m).map .ignoredValue ++
      plan.skipped.map .skippedElement }

/-- Assembles the programs of several contexts, each on its own. -/
def assembleAll (o : Ontology) (cs : List ModelContext) (options : SolverOptions) :
    List (Except Fault Simulation) :=
  cs.map fun c => assemble o c options

end Simulation

end Kinetics

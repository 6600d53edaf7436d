import Kinetics.Proofs.Program.Plan
import Kinetics.Proofs.Program.Reads
import Kinetics.Simulation

/-!
# Kinetics.Proofs.Simulation

The steps of assembling a program, and where the parts of its text stand in it.
-/

namespace Kinetics

namespace Simulation

open Program

variable {o : Ontology} {c : ModelContext} {options : SolverOptions} {s : Simulation}

/-- The plan that a context is assembled by. -/
def planOf (o : Ontology) (c : ModelContext) (options : SolverOptions) : Except Fault Plan := do
  let t ← Topology.ofPlant c.plant
  let m ← Model.resolve o c.selection t
  let plan ← Plan.ofModel o c.kind options t m
  return plan.result

theorem planOf_ok {p : Plan} (h : planOf o c options = .ok p) :
    Topology.ofPlant c.plant = .ok p.topology ∧
      Model.resolve o c.selection p.topology = .ok p.model ∧
      ∃ plan, Plan.ofModel o c.kind options p.topology p.model = .ok plan ∧ plan.result = p := by
  simp only [planOf, bind_ok, pure_ok] at h
  obtain ⟨t, ht, m, hm, plan, hplan, rfl⟩ := h
  obtain ⟨bound, names, states, formulas, -, -, -, hp⟩ := Plan.ofModel_ok hplan
  have htopology : plan.result.topology = t := by rw [hp]
  have hmodel : plan.result.model = m := by rw [hp]
  rw [htopology, hmodel]
  exact ⟨ht, hm, plan, hplan, rfl⟩

theorem assemble_ok (h : assemble o c options = .ok s) :
    ∃ p, planOf o c options = .ok p ∧
      ParameterTable.build o c.knownValues p.topology p.model = .ok s.table ∧
      statementsOf p = .ok s.statements ∧ s.resultKeys = p.resultKeys := by
  simp only [assemble, bind_ok, pure_ok] at h
  obtain ⟨-, -, t, ht, m, hm, -, -, table, htable, plan, hplan, statements, hs, rfl⟩ := h
  have hp : planOf o c options = .ok plan.result := by
    simp only [planOf, bind_ok, pure_ok]
    exact ⟨t, ht, m, hm, plan, hplan, rfl⟩
  obtain ⟨ht', hm', -⟩ := planOf_ok hp
  rw [ht] at ht'
  cases ht'
  rw [hm] at hm'
  cases hm'
  exact ⟨plan.result, hp, htable, hs, rfl⟩

theorem statementsOf_ok {p : Plan} {statements : List Statement}
    (h : statementsOf p = .ok statements) :
    ∃ preparation body solution, p.prepare = .ok preparation ∧ p.derivativeBody = .ok body ∧
      p.solve = .ok solution ∧
      statements = imports p ++
        [Statement.blank, Statement.blank, lookUp, Statement.blank, Statement.blank,
          Statement.block "def simulate(parameter_table):"
            (preparation ++ [Statement.blank, Statement.block "def derivative(_t, _y):" body,
              Statement.blank] ++ solution ++ p.storeResults)] := by
  simp only [statementsOf, Plan.derivative, bind_ok, pure_ok, map_ok] at h
  obtain ⟨preparation, hp, derivative, ⟨body, hb, rfl⟩, solution, hs, rfl⟩ := h
  exact ⟨preparation, body, solution, hp, hb, hs, rfl⟩

/-- A program reads its inputs and the initial values of its states, and nothing else. -/
theorem mem_statements {p : Plan} {statements : List Statement} {k : ParameterIndex}
    (h : statementsOf p = .ok statements) :
    ∃ inputs, p.readInputs = .ok inputs ∧
      (k ∈ Statement.keysReadBy statements ↔
        k ∈ Statement.keysReadBy inputs ∨ k ∈ Statement.keysReadBy p.readStates) := by
  obtain ⟨preparation, body, solution, hp, hb, hs, rfl⟩ := statementsOf_ok h
  obtain ⟨inputs, hi, hk⟩ := Plan.mem_prepare (k := k) hp
  refine ⟨inputs, hi, ?_⟩
  have himports : Quiet (imports p) := by
    unfold imports
    split <;> simp [Quiet, Statement.keysRead]
  have hlookUp : Statement.keysRead lookUp = [] := by
    simp [lookUp, Statement.keysRead, Statement.keysReadBy]
  rw [← hk]
  simp [keysReadBy_append, Statement.keysReadBy, Statement.keysRead, himports.keys, hlookUp,
    (Plan.quiet_derivativeBody hb).keys, (Plan.quiet_solve hs).keys,
    (Plan.quiet_storeResults p).keys]

end Simulation

end Kinetics

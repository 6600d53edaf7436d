import Kinetics.Proofs.Companion.Model
import Kinetics.Proofs.Growth.Program
import Kinetics.Proofs.Keys

/-!
# Kinetics.Proofs.Companion.Simulation

A program does not depend on the companions of a phase that the plant does not have: the table, the
names and the formulas of a model take no companion from the ontology, and the model is the same
without them.
-/

namespace Kinetics

section Table

open ParameterTable

variable {o : Ontology} {t : Topology} {m : Model} {k : Phase} {es : TableEntries}
  {known : List KnownValue}

theorem addVariables_detach {ds : List (String × Definition)} :
    addVariables (o.detach k) t es ds = addVariables o t es ds := by
  induction ds generalizing es with
  | nil => rfl
  | cons d ds ih => simp only [addVariables, Ontology.variableOf_detach, ih]

theorem declared_detach : declared (o.detach k) t m = declared o t m := by
  rw [declared, declared, addVariables_detach]

theorem standardEntries_detach {defs : Dict String Definition}
    {es : List (ParameterIndex × Option (ParameterValue Float))} :
    standardEntries (o.detach k) defs es = standardEntries o defs es := by
  induction es with
  | nil => rfl
  | cons e es ih =>
    simp only [standardEntries, standardEntry, Ontology.variableOf_detach, Ontology.unitOf_detach,
      ih]

theorem build_detach : build (o.detach k) known t m = build o known t m := by
  simp only [build, declared_detach, standardEntries_detach]

theorem ignoredValues_detach :
    ignoredValues (o.detach k) known t m = ignoredValues o known t m := by
  rw [ignoredValues, ignoredValues, declared_detach]

end Table

section Formulas

open Formula Program

variable {o : Ontology} {m : Model} {k : Phase} {n : Names} {selected : NameSet}
  {names : List String} {fs : Formulas}

theorem bindAll_detach : Names.bindAll (o.detach k) n names = Names.bindAll o n names := by
  induction names generalizing n with
  | nil => rfl
  | cons name names ih => simp only [Names.bindAll, Ontology.variableOf_detach, ih]

theorem unselected_detach :
    Formulas.unselected (o.detach k) selected names = Formulas.unselected o selected names := by
  induction names with
  | nil => rfl
  | cons name names ih => simp only [Formulas.unselected, Ontology.variableOf_detach, ih]

theorem ofLaw_detach {law : Law} {name markup : String} :
    Formulas.ofLaw (o.detach k) selected n (law.detach k) name markup =
      Formulas.ofLaw o selected n law name markup := by
  simp only [Formulas.ofLaw, Law.detach_optionalInputs, unselected_detach]

theorem ofLaws_detach :
    Formulas.ofLaws (o.detach k) selected n fs names = Formulas.ofLaws o selected n fs names := by
  induction names generalizing fs with
  | nil => rfl
  | cons name names ih =>
    simp only [Formulas.ofLaws, Ontology.lawOf_detach, ih]
    cases o.lawOf name with
    | error e => rfl
    | ok law => simp only [Except.map, bind, Except.bind, ofLaw_detach, Law.detach_formula]

theorem withJoint_detach {joint : Option String} :
    Formulas.withJoint (o.detach k) selected n fs joint =
      Formulas.withJoint o selected n fs joint := by
  cases joint with
  | none => rfl
  | some name =>
    simp only [Formulas.withJoint, Ontology.lawOf_detach]
    cases o.lawOf name with
    | error e => rfl
    | ok law => simp only [Except.map, bind, Except.bind, ofLaw_detach, Law.detach_jointFormula]

theorem formulas_detach : Formulas.ofModel (o.detach k) m n = Formulas.ofModel o m n := by
  simp only [Formulas.ofModel, ofLaws_detach, withJoint_detach]

end Formulas

namespace Program

variable {o : Ontology} {k : Phase}

/-- The plan is made over the other ontology, and is the same otherwise. -/
theorem Plan.ofModel_detach {kind : ModelKind} {options : SolverOptions} {t : Topology}
    {m : Model} :
    Plan.ofModel (o.detach k) kind options t m =
      (Plan.ofModel o kind options t m).map fun plan =>
        ⟨plan.result.over (o.detach k), plan.skipped⟩ := by
  simp only [Plan.ofModel, bindAll_detach, formulas_detach]
  cases Names.bindAll o Names.empty m.definitions.keys with
  | error e => rfl
  | ok bound =>
    simp only [bind, Except.bind]
    cases VectorBlock.layAll t bound.result m.jointLaw.isSome 0 m.states with
    | error e => rfl
    | ok laid =>
      dsimp only
      cases Formulas.ofModel o m laid.1 <;> rfl

/-- The text takes variables and units from the ontology, and no law. -/
theorem statementsOf_detach {p : Plan} :
    Simulation.statementsOf (p.over (p.ontology.detach k)) = Simulation.statementsOf p := rfl

end Program

namespace Simulation

open Program Activation

/-- A plant without the gas or the solid phase has no use for the laws of this phase. Unless the
selected transport laws name two different ones, which is a fault with or without the phase, the
program is the same when no law names any, and so is the fault where there is no program. -/
theorem assemble_detach (o : Ontology) (c : ModelContext) (options : SolverOptions) (k : Phase)
    (hphase : ∀ t, Topology.ofPlant c.plant = .ok t → t.hasPhase k = false)
    (hlone : LoneCompanion o c.selection k) :
    assemble (o.detach k) c options = assemble o c options := by
  refine bind_congr_ok fun _ _ => bind_congr_ok fun t ht => ?_
  rw [Model.resolve_detach (hphase t ht) hlone]
  refine bind_congr_ok fun m _ => bind_congr_ok fun _ _ => ?_
  rw [build_detach]
  refine bind_congr_ok fun table _ => ?_
  rw [Plan.ofModel_detach, map_bind_eq]
  refine bind_congr_ok fun plan hplan => ?_
  have hontology : plan.result.ontology = o := by
    obtain ⟨_, _, _, _, -, -, -, hresult⟩ := Plan.ofModel_ok hplan
    rw [hresult]
  subst hontology
  rw [statementsOf_detach, Model.unmatched_detach, ignoredValues_detach]
  rfl

section Film

/-- The conversion in contact with a film, whose law names a balance of the gas phase. -/
def filmConversion : Ontology where
  quantities := (conversion.quantities.insert "G"
    ⟨.stateVariable, "G", none, OrderedSet.ofList [.gas, .species], Dict.empty, none⟩).insert "h"
    ⟨.quantity, "h", none, Dict.empty, OrderedSet.ofList ["Film_Law"], none⟩
  laws := (conversion.laws.insert "Film_Law"
    ⟨"<mn>2</mn>", some "Film", Dict.empty, Dict.empty, some "Gas_Balance", none, none, none, none,
      none⟩).insert "Gas_Balance"
    ⟨"<mi>h</mi>", some "Gas", OrderedSet.ofList ["h"], Dict.empty, none, none, some "Z", some "L",
      some "G", none⟩
  units := Dict.empty

def filmContext : ModelContext :=
  { conversionContext with selection := { conversionContext.selection with transport := ["Film"] } }

theorem lone_film : LoneCompanion filmConversion filmContext.selection .gas := by
  unfold LoneCompanion
  decide +kernel

/-- In a plant without gas the film brings in its own law, and no balance of the gas. -/
theorem assemble_detach_film :
    (filmConversion.laws.find? "Film_Law").bind Law.gasLaw = some "Gas_Balance" ∧
    ∃ s, assemble filmConversion filmContext .standard = .ok s ∧
      assemble (filmConversion.detach .gas) filmContext .standard = .ok s := by
  obtain ⟨s, hs⟩ := exists_ok (show (assemble filmConversion filmContext
    .standard).toBool = true by decide +kernel)
  refine ⟨by decide +kernel, s, hs, ?_⟩
  rw [assemble_detach filmConversion filmContext .standard .gas ?_ lone_film]
  · exact hs
  · intro t ht
    obtain ⟨t', ht', hphase⟩ := exists_ok_of_map (x := Topology.ofPlant filmContext.plant)
      (f := (·.hasPhase .gas)) (b := false) (by decide +kernel)
    cases ht.symm.trans ht'
    exact hphase

end Film

end Simulation

end Kinetics

import Kinetics.Proofs.Growth.Model
import Kinetics.Proofs.Growth.Program
import Kinetics.Proofs.Keys

/-!
# Kinetics.Proofs.Growth.Simulation

A program stays the same, with its table, its keys and its remarks, when the ontology grows by what
the context does not select.
-/

namespace Kinetics

namespace Ontology.Extends

open Program Simulation

theorem statementsOf_ok {s : Selection} {o' : Ontology} {p : Plan} {ss : List Statement}
    (h : p.ontology.Extends s o') (hs : statementsOf p = .ok ss) :
    statementsOf (p.over o') = .ok ss := by
  simp only [statementsOf, Plan.derivative, bind_ok, map_ok] at hs ⊢
  obtain ⟨preparation, hp, derivative, ⟨body, hb, hd⟩, solution, hsolution, hs⟩ := hs
  exact ⟨preparation, h.prepare_ok hp, derivative, ⟨body, h.derivativeBody_ok hb, hd⟩, solution,
    hsolution, hs⟩

end Ontology.Extends

namespace Simulation

open Program

variable {o o' : Ontology} {c : ModelContext} {options : SolverOptions} {s : Simulation}

/-- What can be assembled over an ontology is the same over one that extends it. -/
theorem assemble_extends (h : o.Extends c.selection o') (hs : assemble o c options = .ok s) :
    assemble o' c options = .ok s := by
  simp only [assemble, bind_ok, pure_ok] at hs ⊢
  obtain ⟨u, hu, t, ht, m, hm, k, hk, table, htable, plan, hplan, statements, hstatements, rfl⟩ := hs
  have hontology : plan.result.ontology = o := by
    obtain ⟨_, _, _, _, -, -, -, hresult⟩ := Plan.ofModel_ok hplan
    rw [hresult]
  refine ⟨u, hu, t, ht, m, h.resolve_ok hm, k, hk, table, h.build_ok htable, _, h.plan_ok hplan,
    statements, Ontology.Extends.statementsOf_ok (hontology ▸ h) hstatements, ?_⟩
  rw [h.unmatched_model_eq, h.ignoredValues_eq htable]
  rfl

section Heat

/-- The conversion with a temperature in a unit of its own, given by a definitional law or by the law
of radiation, which the context does not select. -/
def heatedConversion : Ontology where
  quantities := conversion.quantities.insert "T"
    ⟨.quantity, "T", some "kelvin", Dict.empty, OrderedSet.ofList ["Heat", "Radiation"], none⟩
  laws := (conversion.laws.insert "Heat"
    ⟨"<mi>r</mi>", none, OrderedSet.ofList ["r"], Dict.empty, none, none, none, none, none,
      none⟩).insert "Radiation"
    ⟨"<mi>T</mi>", some "Radiant", OrderedSet.ofList ["T"], Dict.empty, none, none, none, none,
      none, none⟩
  units := conversion.units.insert "kelvin" ⟨none, none⟩

theorem conversion_extends : conversion.Extends conversionContext.selection heatedConversion where
  quantities name v hv := Dict.find?_insert_new rfl hv
  laws name law hl := Dict.find?_insert_new rfl (Dict.find?_insert_new rfl hl)
  units name u hu := Dict.find?_insert_new rfl hu
  newQuantities := by
    intro name v law hv hnone hlaw
    obtain ⟨-, rfl⟩ := Dict.eq_of_find?_insert hv hnone
    have hnew : ∀ law ∈ ["Heat", "Radiation"], conversion.laws.contains law = false := by
      decide +kernel
    exact Option.isNone_iff_eq_none.1 <| Option.isSome_eq_false_iff.1
      (hnew law (OrderedSet.mem_toList_ofList.1 (Dict.contains_iff.1 hlaw)))
  newLaws := by
    intro name law p hl hnone hp hs
    cases hheat : (conversion.laws.insert "Heat" _).find? name with
    | some law' =>
      cases hl.symm.trans (Dict.find?_insert_new rfl hheat)
      obtain ⟨-, rfl⟩ := Dict.eq_of_find?_insert hheat hnone
      cases hp
    | none =>
      obtain ⟨-, rfl⟩ := Dict.eq_of_find?_insert hl hheat
      cases hp
      rcases hs with hs | hs | hs | hs | ⟨r, ps, hs, -⟩
      · exact absurd hs (by decide)
      · exact absurd hs (by decide)
      · cases hs
      · cases hs
      · cases hs
  newUnits := by
    intro unit name v _ _ hv hu
    have hnone : ∀ e ∈ conversion.quantities.entries, e.2.unit.isNone := by decide +kernel
    have := hnone _ (Dict.find?_eq_some_iff.1 hv)
    rw [hu] at this
    cases this

/-- The heat changes nothing about the program of the conversion. -/
theorem assemble_extends_heated : ∃ s, assemble conversion conversionContext .standard = .ok s ∧
    assemble heatedConversion conversionContext .standard = .ok s := by
  obtain ⟨s, hs⟩ := exists_ok (show (assemble conversion conversionContext
    .standard).toBool = true by decide +kernel)
  exact ⟨s, hs, assemble_extends conversion_extends hs⟩

end Heat

end Simulation

end Kinetics

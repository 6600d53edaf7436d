import Kinetics.Context.Document
import Kinetics.Ontology.Document
import Kinetics.Program.Options
import Kinetics.Proofs.Json.Record

/-!
# Kinetics.Proofs.Document

Ontologies, model contexts and solver options are read back from the JSON that they are written to,
exactly if their numbers are. So fields that are left out are read as absent, null is read as no key,
maps and sets keep what they hold, and a series is no scalar even if it is empty.
-/

namespace Kinetics

open Json

section Words

theorem Dimension.ofJson?_toJson (d : Dimension) : ofJson? d.toJson = some d := by
  rw [toJson, ofJson?, asEnumerated_ofString]
  cases d <;> rfl

theorem VariableRole.ofJson?_toJson (r : VariableRole) : ofJson? r.toJson = some r := by
  rw [toJson, ofJson?, asEnumerated_ofString]
  cases r <;> rfl

theorem ModelKind.ofJson?_toJson (k : ModelKind) : ofJson? k.toJson = some k := by
  rw [toJson, ofJson?, asEnumerated_ofString]
  cases k <;> rfl

end Words

section Parameters

/-- The numbers of a unit. -/
def Scale.floats (s : Scale Float) : List Float :=
  s.ratio.toList ++ s.intercept.toList

/-- The numbers of a value. -/
def ParameterValue.floats : ParameterValue Float → List Float
  | .scalar x => [x]
  | .series xs => xs

theorem Scale.ofJson?_toJson {s : Scale Float} :
    ofJson? s.toJson = some s ↔ ∀ x ∈ s.floats, Survives x := by
  have hfields : fields? fieldNames s.toJson =
      some [s.ratio.map ofFloat, s.intercept.map ofFloat] :=
    fields?_record [("ratio_to_standard", s.ratio.map ofFloat),
      ("intercept", s.intercept.map ofFloat)] (by simp) rfl (by decide)
  rw [floats, List.forall_mem_append, ← optional_float, ← optional_float, ofJson?, hfields]
  constructor
  · intro h
    simp only at h
    split at h
    · rename_i hr hb
      cases h
      exact ⟨hr, hb⟩
    · cases h
  · rintro ⟨hr, hb⟩
    simp only [hr, hb]

theorem ParameterValue.ofJson?_toJson {v : ParameterValue Float} :
    ofJson? v.toJson = some v ↔ ∀ x ∈ v.floats, Survives x := by
  cases v with
  | scalar x =>
    rw [floats, List.forall_mem_singleton, toJson]
    unfold Survives ofFloat
    split
    · rename_i n _
      show n.toFloat?.map scalar = some (scalar x) ↔ n.toFloat? = some x
      rw [Option.map_eq_some_iff]
      simp only [scalar.injEq, exists_eq_right]
    · constructor
      · intro h
        cases h
      · intro h
        cases h
  | series xs =>
    rw [floats]
    show (sequence asFloat (xs.map ofFloat)).map series = some (series xs) ↔ _
    rw [Option.map_eq_some_iff]
    simp only [series.injEq, exists_eq_right]
    exact sequence_map_iff

theorem ParameterIndex.ofJson?_toJson (i : ParameterIndex) : ofJson? i.toJson = some i := by
  simp only [toJson, ofJson?, asText_ofString, nullable_ofOption]

end Parameters

section Ontology

/-- The numbers of a variable. -/
def Variable.floats (v : Variable) : List Float :=
  v.fixedValue.toList

/-- The numbers of an ontology: the fixed values of variables, and units. -/
def Ontology.floats (o : Ontology) : List Float :=
  o.quantities.values.flatMap Variable.floats ++ o.units.values.flatMap Scale.floats

theorem Variable.ofJson?_toJson {v : Variable} :
    ofJson? v.toJson = some v ↔ ∀ x ∈ v.floats, Survives x := by
  have hfields : fields? fieldNames v.toJson =
      some [some v.role.toJson, some (ofString v.symbol), v.unit.map ofString,
        some (ofSet Dimension.toJson v.dimensions), some (ofSet ofString v.laws),
        v.fixedValue.map ofFloat] :=
    fields?_record [("class", some v.role.toJson), ("symbol", some (ofString v.symbol)),
      ("unit", v.unit.map ofString), ("dims", some (ofSet Dimension.toJson v.dimensions)),
      ("laws", some (ofSet ofString v.laws)), ("fixed_value", v.fixedValue.map ofFloat)]
      (by simp) rfl (by decide)
  have hdimensions : Dimension.setOfJson? (ofSet Dimension.toJson v.dimensions) = some v.dimensions :=
    asSet_ofSet Dimension.ofJson?_toJson v.dimensions
  rw [floats, ← optional_float, ofJson?, hfields]
  simp only [required_some, VariableRole.ofJson?_toJson, asText_ofString, optional_text,
    defaulted_some, hdimensions, asSet_texts]
  cases hx : defaulted none (nullable asFloat) (v.fixedValue.map ofFloat) with
  | none => exact ⟨nofun, nofun⟩
  | some x =>
    constructor
    · intro h
      exact congrArg some (congrArg Variable.fixedValue (Option.some.inj h))
    · intro h
      rw [Option.some.inj h]

theorem Law.ofJson?_toJson (l : Law) : ofJson? l.toJson = some l := by
  have hfields : fields? fieldNames l.toJson =
      some [some (ofString l.formula), l.phenomenon.map ofString, some (ofSet ofString l.inputs),
        some (ofSet ofString l.optionalInputs), l.gasLaw.map ofString, l.solidLaw.map ofString,
        l.integralVariable.map ofString, l.upperLimit.map ofString,
        l.differentialVariable.map ofString, l.jointFormula.map ofString] :=
    fields?_record [("formula", some (ofString l.formula)),
      ("phenomenon", l.phenomenon.map ofString), ("vars", some (ofSet ofString l.inputs)),
      ("opt_vars", some (ofSet ofString l.optionalInputs)),
      ("associated_gas_law", l.gasLaw.map ofString),
      ("associated_solid_law", l.solidLaw.map ofString),
      ("integral_var", l.integralVariable.map ofString),
      ("integral_upper_limit", l.upperLimit.map ofString),
      ("differential_var", l.differentialVariable.map ofString),
      ("formula_integrated_with_accumulation", l.jointFormula.map ofString)]
      (by simp) rfl (by decide)
  rw [ofJson?, hfields]
  simp only [required_some, asText_ofString, Law.optionalText, optional_text, defaulted_some,
    asSet_texts]

theorem Ontology.ofJson?_toJson {o : Ontology} :
    ofJson? o.toJson = some o ↔ ∀ x ∈ o.floats, Survives x := by
  have hfields : fields? fieldNames o.toJson =
      some [some (ofDict Variable.toJson o.quantities), some (ofDict Law.toJson o.laws),
        some (ofDict Scale.toJson o.units)] :=
    fields?_record [("variables", some (ofDict Variable.toJson o.quantities)),
      ("laws", some (ofDict Law.toJson o.laws)), ("units", some (ofDict Scale.toJson o.units))]
      rfl rfl (by decide)
  have hlaws : asDict Law.ofJson? (ofDict Law.toJson o.laws) = some o.laws :=
    asDict_ofDict.2 fun l _ => l.ofJson?_toJson
  have hquantities : asDict Variable.ofJson? (ofDict Variable.toJson o.quantities) =
      some o.quantities ↔ ∀ x ∈ o.quantities.values.flatMap Variable.floats, Survives x := by
    rw [asDict_ofDict, List.forall_mem_flatMap]
    exact forall₂_congr fun v _ => Variable.ofJson?_toJson
  have hunits : asDict Scale.ofJson? (ofDict Scale.toJson o.units) = some o.units ↔
      ∀ x ∈ o.units.values.flatMap Scale.floats, Survives x := by
    rw [asDict_ofDict, List.forall_mem_flatMap]
    exact forall₂_congr fun s _ => Scale.ofJson?_toJson
  rw [floats, List.forall_mem_append, ← hquantities, ← hunits, ofJson?, hfields]
  simp only [defaulted_some, hlaws]
  constructor
  · intro h
    split at h
    · rename_i hv hl hu
      cases h
      exact ⟨hv, hu⟩
    · cases h
  · rintro ⟨hv, hu⟩
    rw [hv, hu]

end Ontology

section Context

/-- The numbers of a context: its known values. -/
def ModelContext.floats (c : ModelContext) : List Float :=
  c.knownValues.flatMap fun k => k.value.floats

theorem Plant.ofJson?_toJson (p : Plant) : ofJson? p.toJson = some p := by
  have hgroup (members : List String) : groupOfJson? (groupToJson members) = some members := by
    have hfields : fields? ["species"] (groupToJson members) = some [some (ofList ofString members)] :=
      fields?_record [("species", some (ofList ofString members))] rfl rfl (by decide)
    rw [groupOfJson?, hfields]
    simp only [defaulted_some, asList_texts]
  have hgroups (d : Dict String (List String)) :
      groups? (some (ofDict groupToJson d)) = some d :=
    asDict_ofDict.2 fun members _ => hgroup members
  have hfields : fields? fieldNames p.toJson =
      some [some (ofList ofString p.species), some (ofList ofString p.reactions),
        some (ofDict groupToJson p.streams), some (ofDict groupToJson p.gases),
        some (ofDict groupToJson p.solids)] :=
    fields?_record [("species", some (ofList ofString p.species)),
      ("reactions", some (ofList ofString p.reactions)),
      ("streams", some (ofDict groupToJson p.streams)), ("gases", some (ofDict groupToJson p.gases)),
      ("solids", some (ofDict groupToJson p.solids))] rfl rfl (by decide)
  rw [ofJson?, hfields]
  simp only [defaulted_some, asList_texts, hgroups]

theorem Selection.ofJson?_toJson (s : Selection) : ofJson? s.toJson = some s := by
  have hphenomena : asDict (asList asText) (ofDict (ofList ofString) s.reactionPhenomena) =
      some s.reactionPhenomena :=
    asDict_ofDict.2 fun names _ => asList_texts names
  have hoverrides : asDict asText (ofDict ofString s.overrides) = some s.overrides :=
    asDict_ofDict.2 fun name _ => asText_ofString name
  have hfields : fields? fieldNames s.toJson =
      some [some (ofString s.accumulation), some (ofString s.flowPattern),
        some (ofList ofString s.transport), some (ofList ofString s.equilibrium),
        some (ofDict (ofList ofString) s.reactionPhenomena), some (ofDict ofString s.overrides)] :=
    fields?_record [("accumulation", some (ofString s.accumulation)),
      ("flow_pattern", some (ofString s.flowPattern)),
      ("mass_transport", some (ofList ofString s.transport)),
      ("mass_equilibrium", some (ofList ofString s.equilibrium)),
      ("reaction_phenomena", some (ofDict (ofList ofString) s.reactionPhenomena)),
      ("param_law_override", some (ofDict ofString s.overrides))] rfl rfl (by decide)
  rw [ofJson?, hfields]
  simp only [defaulted_some, asText_ofString, asList_texts, hphenomena, hoverrides]

theorem KnownValue.ofJson?_toJson {k : KnownValue} :
    ofJson? k.toJson = some k ↔ ∀ x ∈ k.value.floats, Survives x := by
  have hfields : fields? ["index", "value"] k.toJson =
      some [some k.index.toJson, some k.value.toJson] :=
    fields?_record [("index", some k.index.toJson), ("value", some k.value.toJson)] rfl rfl
      (by decide)
  rw [← ParameterValue.ofJson?_toJson, ofJson?, hfields]
  simp only [required_some, ParameterIndex.ofJson?_toJson]
  constructor
  · intro h
    split at h
    · rename_i hi hv
      cases h
      exact hv
    · cases h
  · intro h
    rw [h]

theorem ModelContext.ofJson?_toJson {c : ModelContext} :
    ofJson? c.toJson = some c ↔ ∀ x ∈ c.floats, Survives x := by
  have hfields : fields? fieldNames c.toJson =
      some [some c.kind.toJson, some c.plant.toJson, some c.selection.toJson,
        some (ofList KnownValue.toJson c.knownValues)] :=
    fields?_record [("kind", some c.kind.toJson), ("basic", some c.plant.toJson),
      ("description", some c.selection.toJson),
      ("known_values", some (ofList KnownValue.toJson c.knownValues))] rfl rfl (by decide)
  have hvalues : asList KnownValue.ofJson? (ofList KnownValue.toJson c.knownValues) =
      some c.knownValues ↔ ∀ x ∈ c.floats, Survives x := by
    rw [asList_ofList, floats, List.forall_mem_flatMap]
    exact forall₂_congr fun k _ => KnownValue.ofJson?_toJson
  rw [← hvalues, ofJson?, hfields]
  simp only [defaulted_some, ModelKind.ofJson?_toJson, Plant.ofJson?_toJson,
    Selection.ofJson?_toJson]
  constructor
  · intro h
    split at h
    · rename_i hk hp hs hv
      cases h
      exact hv
    · cases h
  · intro h
    rw [h]

end Context

section Options

/-- The numbers of the options: their tolerances. -/
def SolverOptions.floats (o : SolverOptions) : List Float :=
  [o.relativeTolerance, o.absoluteTolerance, o.boundaryTolerance]

theorem SolverOptions.ofJson?_toJson {o : SolverOptions} :
    ofJson? o.toJson = some o ↔ ∀ x ∈ o.floats, Survives x := by
  have hfields : fields? fieldNames o.toJson =
      some [some (ofString o.method), some (ofFloat o.relativeTolerance),
        some (ofFloat o.absoluteTolerance), some (ofNat o.meshPoints.toNat),
        some (ofFloat o.boundaryTolerance), some (ofOption ofString o.independentKey)] :=
    fields?_record [("method", some (ofString o.method)),
      ("rtol", some (ofFloat o.relativeTolerance)), ("atol", some (ofFloat o.absoluteTolerance)),
      ("bvp_mesh_points", some (ofNat o.meshPoints.toNat)),
      ("bvp_tol", some (ofFloat o.boundaryTolerance)),
      ("independent_key", some (ofOption ofString o.independentKey))] rfl rfl (by decide)
  rw [floats, List.forall_mem_cons, List.forall_mem_cons, List.forall_mem_singleton, ofJson?, hfields]
  simp only [defaulted_some, asText_ofString, asWord_ofNat, nullable_ofOption]
  constructor
  · intro h
    split at h
    · rename_i hm hr ha hn hb hk
      cases h
      exact ⟨hr, ha, hb⟩
    · cases h
  · rintro ⟨hr, ha, hb⟩
    rw [Survives] at hr ha hb
    rw [hr, ha, hb]

end Options

section Texts

theorem Ontology.regular_toJson (o : Ontology) : o.toJson.Regular := by
  have hdimension (d : Dimension) : d.toJson.Regular :=
    regular_ofString d.word
  have hvariable (v : Variable) : v.toJson.Regular :=
    regular_record (by simp [VariableRole.toJson, ofSet, hdimension])
  have hlaw (l : Law) : l.toJson.Regular :=
    regular_record (by simp [ofSet])
  have hunit (s : Scale Float) : s.toJson.Regular :=
    regular_record (by simp)
  exact regular_record (by simp [hvariable, hlaw, hunit])

theorem ModelContext.regular_toJson (c : ModelContext) : c.toJson.Regular := by
  have hgroup (members : List String) : (Plant.groupToJson members).Regular :=
    regular_record (by simp)
  have hplant : c.plant.toJson.Regular :=
    regular_record (by simp [hgroup])
  have hselection : c.selection.toJson.Regular :=
    regular_record (by simp)
  have hindex (i : ParameterIndex) : i.toJson.Regular :=
    .array (by simp)
  have hvalue (v : ParameterValue Float) : v.toJson.Regular := by
    cases v with
    | scalar x => exact regular_ofFloat x
    | series xs => exact regular_ofList regular_ofFloat xs
  have hknown (k : KnownValue) : k.toJson.Regular :=
    regular_record (by simp [hindex, hvalue])
  exact regular_record (by simp [ModelKind.toJson, hplant, hselection, hknown])

theorem SolverOptions.regular_toJson (o : SolverOptions) : o.toJson.Regular :=
  regular_record (by simp)

/-- An ontology, a context and the options of the solver are read back from their JSON text, compact
or pretty, exactly if each of their numbers is read back from its digits. -/
theorem documents_read_back :
    (∀ o : Ontology, ReadsBack Ontology.toJson Ontology.ofJson? o ↔ ∀ x ∈ o.floats, Survives x) ∧
    (∀ c : ModelContext, ReadsBack ModelContext.toJson ModelContext.ofJson? c ↔
      ∀ x ∈ c.floats, Survives x) ∧
    ∀ o : SolverOptions, ReadsBack SolverOptions.toJson SolverOptions.ofJson? o ↔
      ∀ x ∈ o.floats, Survives x := by
  refine ⟨fun o => ?_, fun c => ?_, fun o => ?_⟩
  · rw [readsBack_iff o.regular_toJson, Ontology.ofJson?_toJson]
  · rw [readsBack_iff c.regular_toJson, ModelContext.ofJson?_toJson]
  · rw [readsBack_iff o.regular_toJson, SolverOptions.ofJson?_toJson]

/-- A context with an empty series and a scalar. -/
def sampledContext : ModelContext :=
  ⟨.dynamic, Plant.empty, Selection.empty,
    [⟨ParameterIndex.scalar "k", .scalar 0.25⟩, ⟨⟨"F", none, some "feed", none, none⟩, .series []⟩]⟩

/-- An ontology with a fixed value and a unit without intercept. -/
def litres : Ontology where
  quantities := Dict.ofList
    [("V", ⟨.modelParameter, "V", some "L", OrderedSet.ofList [.stream], Dict.empty, some 1.5⟩)]
  laws := Dict.ofList [("Growth", ⟨"<mi>V</mi>", none, OrderedSet.ofList ["V"], Dict.empty, none,
    none, none, none, none, none⟩)]
  units := Dict.ofList [("L", ⟨some 1e-3, none⟩)]

/-- The standard options and two samples are read back; a tolerance that is not finite is not. -/
theorem documents_read_back_samples :
    ReadsBack Ontology.toJson Ontology.ofJson? litres ∧
    ReadsBack ModelContext.toJson ModelContext.ofJson? sampledContext ∧
    ReadsBack SolverOptions.toJson SolverOptions.ofJson? .standard ∧
    ¬ReadsBack SolverOptions.toJson SolverOptions.ofJson?
      { SolverOptions.standard with relativeTolerance := 1 / 0 } := by
  refine ⟨(documents_read_back.1 litres).2 ?_, (documents_read_back.2.1 sampledContext).2 ?_,
    (documents_read_back.2.2 .standard).2 ?_, fun h => ?_⟩
  · decide +kernel
  · decide +kernel
  · decide +kernel
  · exact absurd ((documents_read_back.2.2 _).1 h (1 / 0) List.mem_cons_self) (by decide +kernel)

end Texts

end Kinetics

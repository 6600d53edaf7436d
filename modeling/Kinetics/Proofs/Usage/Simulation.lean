import Kinetics.Proofs.Hygiene.Simulation
import Kinetics.Proofs.Usage.Inputs

/-!
# Kinetics.Proofs.Usage.Simulation

The names that an assembled program reads outside its derivative are assigned before, with one
exception. The upper limit is assigned there exactly if it is an input or a constant; where a law
computes it, or it is a state or the variable that is integrated over, only the derivative assigns
it.
-/

namespace Kinetics

namespace Program

open Statement

namespace Plan

/-- The upper limit is an input or a constant. -/
def LimitGiven (p : Plan) : Prop :=
  p.model.definitions.find? p.model.upperLimit = some .leaf ∨
    p.model.definitions.find? p.model.upperLimit = some .constant

/-- What is set up before the derivative: the time series of a dynamic operation, and the initial
vector. -/
theorem prepare_cut {p : Plan} {preparation : List Statement} (h : p.prepare = .ok preparation) :
    ∃ constants inputs interpolation, p.setConstants = .ok constants ∧ p.readInputs = .ok inputs ∧
      (if p.isDynamic then p.interpolate else .ok []) = .ok interpolation ∧
      preparation = constants ++ inputs ++ p.readStates ++ (interpolation ++ [p.setInitial]) := by
  simp only [prepare, bind_ok] at h
  obtain ⟨constants, hc, inputs, hi, h⟩ := h
  split at h
  · rename_i hd
    simp only [bind_ok, pure_ok] at h
    obtain ⟨interpolation, hn, rfl⟩ := h
    exact ⟨constants, inputs, interpolation, hc, hi, by rw [if_pos hd, hn],
      by simp only [List.append_assoc]⟩
  · rename_i hd
    cases h
    exact ⟨constants, inputs, [], hc, hi, if_neg hd, by simp only [List.append_assoc]⟩

section Named

variable {p : Plan} {constants inputs interpolation solution : List Statement} {upper : String}

/-- Constants, inputs and initial values need nothing else. -/
theorem supplied_given (hconstants : p.setConstants = .ok constants)
    (hinputs : p.readInputs = .ok inputs) : Supplied [] (constants ++ inputs ++ p.readStates) :=
  ((supplied_setConstants hconstants).append (supplied_readInputs hinputs)).append
    supplied_readStates

theorem initialName_mem_targets {b : VectorBlock} (hb : b ∈ p.states) :
    initialName b ∈ targetsBy p.readStates := by
  have hx : initialName b ∈ targetsBy (readsOf p.topology (initialName b) b.variableName b.shape) :=
    mem_targets_readsOf.2 rfl
  obtain ⟨st, hst, hx⟩ := mem_targetsBy.1 hx
  exact mem_targetsBy.2 ⟨st, List.mem_flatMap.2 ⟨b, hb, hst⟩, hx⟩

/-- What is around the derivative reads the upper limit, and else only inputs and initial values. -/
theorem asks_around (hspelled : p.names.Spelled)
    (hcalled : ∀ b ∈ p.states, VectorBlock.Called p.names b)
    (hupper : p.nameIn p.model.upperLimit = .ok upper) (hinputs : p.readInputs = .ok inputs)
    (hinterpolation : (if p.isDynamic then p.interpolate else .ok []) = .ok interpolation)
    (hsolution : p.solve = .ok solution) :
    Asks (upper :: (targetsBy inputs ++ targetsBy p.readStates))
      (interpolation ++ [p.setInitial] ++ (solution ++ p.storeResults)) ∧
      upper ∈ readsBy (interpolation ++ [p.setInitial] ++ (solution ++ p.storeResults)) := by
  obtain ⟨hu, hreserved⟩ := hspelled.identifier (calls_of_nameIn hupper)
  have hfor : upper ≠ "for" := by
    rintro rfl
    exact hreserved (by decide)
  obtain ⟨hsolve, hread⟩ := asks_solve hsolution hupper hu
  have hinitial : Asks (upper :: (targetsBy inputs ++ targetsBy p.readStates)) [p.setInitial] := by
    refine (asks_setInitial fun b hb => (hspelled.identifier (hcalled b hb).state).1).mono ?_
    intro x hx
    obtain ⟨b, hb, rfl⟩ := List.mem_map.1 hx
    exact List.mem_cons_of_mem _ (List.mem_append_right _ (initialName_mem_targets hb))
  have hend : Asks (upper :: (targetsBy inputs ++ targetsBy p.readStates))
      (solution ++ p.storeResults) :=
    (hsolve.mono (List.cons_subset_cons _ (List.nil_subset _))).append
      (asks_idle idle_storeResults)
  have hreads : upper ∈ readsBy interpolation ∨ upper ∈ readsBy solution →
      upper ∈ readsBy (interpolation ++ [p.setInitial] ++ (solution ++ p.storeResults)) := by
    simp only [mem_readsBy, List.mem_append]
    rintro (⟨st, hst, hx⟩ | ⟨st, hst, hx⟩)
    · exact ⟨st, .inl (.inl hst), hx⟩
    · exact ⟨st, .inr (.inl hst), hx⟩
  by_cases hd : p.isDynamic = true
  · rw [if_pos hd] at hinterpolation
    obtain ⟨names, hnames⟩ : ∃ names, p.interpolated = .ok names := by
      simp only [interpolate, bind_ok] at hinterpolation
      obtain ⟨-, -, names, hnames, -⟩ := hinterpolation
      exact ⟨names, hnames⟩
    obtain ⟨hseries, hread'⟩ := asks_interpolate hinterpolation hupper hnames hu
      fun name hname => (hspelled.identifier (calls_of_interpolated hnames name hname)).1
    refine ⟨((hseries.mono (List.cons_subset_cons _ fun x hx => ?_)).append hinitial).append hend,
      hreads (.inl (hread' hfor))⟩
    exact List.mem_append_left _ ((mem_targets_readInputs hinputs).2
      (leaf_of_interpolated hnames hx))
  · rw [if_neg hd] at hinterpolation
    cases hinterpolation
    exact ⟨hinitial.append hend,
      hreads (.inr (hread hfor (.inl (Bool.eq_false_iff.2 hd))))⟩

theorem targets_around
    (hinterpolation : (if p.isDynamic then p.interpolate else .ok []) = .ok interpolation)
    (hsolution : p.solve = .ok solution) {x : String}
    (hx : x ∈ targetsBy (interpolation ++ [p.setInitial] ++ (solution ++ p.storeResults))) :
    isMachinery x = true := by
  have hfixed : ∀ m ∈ machineryNames, isMachinery m = true := by decide
  obtain ⟨st, hst, hx⟩ := mem_targetsBy.1 hx
  simp only [List.mem_append, List.mem_singleton] at hst
  rcases hst with (hst | rfl) | hst | hst
  · by_cases hd : p.isDynamic = true
    · rw [if_pos hd] at hinterpolation
      exact targets_interpolate hinterpolation (mem_targetsBy.2 ⟨st, hst, hx⟩)
    · rw [if_neg hd] at hinterpolation
      cases hinterpolation
      cases hst
  · rw [List.mem_singleton.1 hx]
    decide
  · exact hfixed x (fixed_solve hsolution st hst x hx)
  · exact hfixed x (fixed_storeResults p st hst x hx)

/-- The upper limit is assigned if it is given; a name of its own is assigned only then. -/
theorem upper_mem_targets (hseparate : p.names.Separate) (hapart : p.names.Apart)
    (hupper : p.nameIn p.model.upperLimit = .ok upper)
    (hconstants : p.setConstants = .ok constants) (hinputs : p.readInputs = .ok inputs) :
    upper ∈ targetsBy (constants ++ inputs) ↔ p.LimitGiven := by
  obtain ⟨b, hb, rfl⟩ := map_ok.1 hupper
  rw [targetsBy_append, List.mem_append, mem_targets_setConstants hconstants,
    mem_targets_readInputs hinputs, LimitGiven]
  constructor
  · rintro (⟨name, b', hd, hb', hname⟩ | ⟨name, b', hd, hb', hname⟩)
    · obtain rfl := hseparate.eq_of_name hapart hb' hb hname
      exact .inr hd
    · obtain rfl := hseparate.eq_of_name hapart hb' hb hname
      exact .inl hd
  · rintro (hd | hd)
    · exact .inr ⟨_, b, hd, hb, rfl⟩
    · exact .inl ⟨_, b, hd, hb, rfl⟩

end Named

end Plan

end Program

namespace Simulation

open Program Statement

variable {o : Ontology} {c : ModelContext} {options : SolverOptions} {s : Simulation}

/-- Around the derivative, a program reads of its model the upper limit and what is assigned before.
If the upper limit is given, it is assigned before, too; otherwise nothing but the derivative
assigns it, unless it goes by a name of the machinery. -/
theorem limit_assigned_iff (h : assemble o c options = .ok s) :
    ∃ p upper constants inputs setup body solution,
      planOf o c options = .ok p ∧ p.nameIn p.model.upperLimit = .ok upper ∧
      p.setConstants = .ok constants ∧ p.readInputs = .ok inputs ∧ p.derivativeBody = .ok body ∧
      s.statements = imports p ++
        [.blank, .blank, lookUp, .blank, .blank,
          .block "def simulate(parameter_table):"
            (constants ++ inputs ++ p.readStates ++ setup ++
              [.blank, .block "def derivative(_t, _y):" body, .blank] ++ solution)] ∧
      ReadsAssigned [upper] (constants ++ inputs ++ p.readStates ++ (setup ++ solution)) ∧
      upper ∈ readsBy (setup ++ solution) ∧
      (∀ x ∈ targetsBy (p.readStates ++ (setup ++ solution)), isMachinery x = true) ∧
      (upper ∈ targetsBy (constants ++ inputs) ↔ p.LimitGiven) ∧
      (p.LimitGiven →
        ReadsAssigned [] (constants ++ inputs ++ p.readStates ++ (setup ++ solution))) := by
  obtain ⟨p, hp, -, hstatements, -⟩ := assemble_ok h
  obtain ⟨-, -, plan, hplan, rfl⟩ := planOf_ok hp
  obtain ⟨hspelled, hapart, hcalled⟩ := Plan.ofModel_named hplan
  have hseparate := Plan.ofModel_separate hplan
  generalize plan.result = p at *
  obtain ⟨preparation, body, solution, hpreparation, hbody, hsolution, hs⟩ :=
    statementsOf_ok hstatements
  obtain ⟨constants, inputs, interpolation, hconstants, hinputs, hinterpolation, rfl⟩ :=
    Plan.prepare_cut hpreparation
  obtain ⟨upper, hupper⟩ : ∃ upper, p.nameIn p.model.upperLimit = .ok upper := by
    simp only [Plan.solve, bind_ok] at hsolution
    obtain ⟨upper, hupper, -⟩ := hsolution
    exact ⟨upper, hupper⟩
  obtain ⟨hasks, hread⟩ :=
    Plan.asks_around hspelled hcalled hupper hinputs hinterpolation hsolution
  have hgiven := Plan.supplied_given hconstants hinputs
  have hlimit := Plan.upper_mem_targets hseparate hapart hupper hconstants hinputs
  refine ⟨p, upper, constants, inputs, interpolation ++ [p.setInitial], body,
    solution ++ p.storeResults, hp, hupper, hconstants, hinputs, hbody, ?_, ?_, hread, ?_, hlimit,
    fun hgivenLimit => ?_⟩
  · rw [hs]
    simp only [List.append_assoc]
  · refine ((hgiven.mono (List.nil_subset _)).append (hasks.mono ?_).supplied).readsAssigned
    intro x hx
    simp only [targetsBy_append, List.mem_append, List.mem_cons] at hx ⊢
    tauto
  · intro x hx
    rw [targetsBy_append] at hx
    rcases List.mem_append.1 hx with hx | hx
    · exact Plan.targets_readStates hx
    · exact Plan.targets_around hinterpolation hsolution hx
  · have hassigned := hlimit.2 hgivenLimit
    refine (hgiven.append (hasks.mono ?_).supplied).readsAssigned
    intro x hx
    simp only [targetsBy_append, List.mem_append, List.mem_cons, List.nil_append] at hx hassigned ⊢
    rcases hx with rfl | hx
    · exact .inl hassigned
    · tauto

section Horizon

/-- A model in which `C` is integrated over `t` up to `T`, which the given laws claim. The law
`Span` computes it from `k`. -/
def horizon (laws : List String) : Ontology where
  quantities := Dict.ofList
    [("C", ⟨.stateVariable, "C", none, Dict.empty, Dict.empty, none⟩),
      ("T", ⟨.operationParameter, "T", none, Dict.empty, OrderedSet.ofList laws, none⟩),
      ("k", ⟨.operationParameter, "k", none, Dict.empty, Dict.empty, none⟩),
      ("t", ⟨.independentVariable, "t", none, Dict.empty, Dict.empty, none⟩)]
  laws := Dict.ofList
    [("Acc", ⟨"<mi>k</mi>", some "S", OrderedSet.ofList ["k"], Dict.empty, none, none, some "t",
        some "T", some "C", none⟩),
      ("Span", ⟨"<mi>k</mi>", none, OrderedSet.ofList ["k"], Dict.empty, none, none, none, none,
        none, none⟩)]
  units := Dict.empty

def horizonContext : ModelContext :=
  ⟨.dynamic, Plant.empty, { Selection.empty with accumulation := "S" }, []⟩

/-- What the upper limit is defined as, and what it is called. -/
def horizonPlanned (d : Definition) (p : Plan) : Bool :=
  p.model.upperLimit = "T" ∧ p.model.definitions.find? "T" = some d ∧
    (p.names.symbols.find? "T").bind p.names.bindings.find? = some ⟨"T", .scalar⟩

/-- Read from the table, the horizon is there for the time series. Computed by a law, it is read for
the time series and never assigned outside the derivative. -/
theorem limit_assigned_iff_horizon :
    (∃ s p constants inputs setup solution, assemble (horizon []) horizonContext .standard = .ok s ∧
      planOf (horizon []) horizonContext .standard = .ok p ∧
      "T" ∈ readsBy (setup ++ solution) ∧
      ReadsAssigned [] (constants ++ inputs ++ p.readStates ++ (setup ++ solution))) ∧
    ∃ s p constants inputs setup solution,
      assemble (horizon ["Span"]) horizonContext .standard = .ok s ∧
      planOf (horizon ["Span"]) horizonContext .standard = .ok p ∧
      "T" ∈ readsBy (setup ++ solution) ∧
      "T" ∉ targetsBy (constants ++ inputs ++ p.readStates ++ (setup ++ solution)) := by
  have hplanned {laws : List String} {d : Definition} {p : Plan} {upper : String}
      (hp : planOf (horizon laws) horizonContext .standard = .ok p)
      (hupper : p.nameIn p.model.upperLimit = .ok upper)
      (h : (planOf (horizon laws) horizonContext .standard).toOption.any (horizonPlanned d) =
        true) :
      p.model.definitions.find? p.model.upperLimit = some d ∧ upper = "T" := by
    rw [hp] at h
    change horizonPlanned d p = true at h
    simp only [horizonPlanned, decide_eq_true_eq] at h
    obtain ⟨hlimit, hd, hentry⟩ := h
    rw [hlimit] at hupper ⊢
    obtain ⟨b, hb, rfl⟩ := map_ok.1 hupper
    obtain ⟨symbol, hsymbol, hb⟩ := Names.entryOf_ok.1 hb
    rw [hsymbol, Option.bind_some, hb] at hentry
    exact ⟨hd, by rw [Option.some.inj hentry]⟩
  obtain ⟨s, hs⟩ := exists_ok (show (assemble (horizon []) horizonContext .standard).toBool = true
    by decide +kernel)
  obtain ⟨s', hs'⟩ := exists_ok (show (assemble (horizon ["Span"]) horizonContext .standard).toBool =
    true by decide +kernel)
  refine ⟨?_, ?_⟩
  · obtain ⟨p, upper, constants, inputs, setup, -, solution, hp, hupper, -, -, -, -, -, hread, -, -,
      hall⟩ := limit_assigned_iff hs
    obtain ⟨hd, rfl⟩ := hplanned (d := .leaf) hp hupper (by decide +kernel)
    exact ⟨s, p, constants, inputs, setup, solution, hs, hp, hread, hall (.inl hd)⟩
  · obtain ⟨p, upper, constants, inputs, setup, -, solution, hp, hupper, -, -, -, -, -, hread, hfixed,
      hlimit, -⟩ := limit_assigned_iff hs'
    obtain ⟨hd, rfl⟩ := hplanned (d := .derived "Span") hp hupper (by decide +kernel)
    refine ⟨s', p, constants, inputs, setup, solution, hs', hp, hread, fun hx => ?_⟩
    rw [List.append_assoc (constants ++ inputs), targetsBy_append] at hx
    rcases List.mem_append.1 hx with hx | hx
    · have hgiven := hlimit.1 hx
      rw [Plan.LimitGiven, hd] at hgiven
      simp at hgiven
    · exact absurd (hfixed "T" hx) (by decide)

end Horizon

end Simulation

end Kinetics

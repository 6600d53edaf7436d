import Kinetics.Proofs.Genuine.Model
import Kinetics.Proofs.Simulation
import Kinetics.Proofs.Tables.Formulas
import Kinetics.Proofs.Tables.Names

/-!
# Kinetics.Proofs.Tables.Simulation

A program is written from two tables, the entries of variables and the compiled formulas of laws.
Both hold for each variable and each law what is made from itself, but for the two keys that are
made by a suffix: a variable that is named like the flux of the main state loses its entry to the
flux, and a law that is named like the flux of the joint law loses its formula to the joint one.
-/

namespace Kinetics

/-- The variable that the flux of the main state is entered as, if it has one. -/
def Model.fluxVariable (m : Model) : Option String :=
  if m.jointLaw.isSome then m.states.head?.map fun main => main.name ++ Program.fluxSuffix
  else none

namespace Program

open Formula

theorem fluxVariable_ne {m : Model} {name : String} : m.fluxVariable ≠ some name ↔
    (m.jointLaw.isSome = true → ∀ main ∈ m.states.head?, main.name ++ fluxSuffix ≠ name) := by
  unfold Model.fluxVariable
  split
  · rename_i hj
    cases m.states <;> simp [hj]
  · rename_i hj
    simp [hj]

namespace Plan

variable {o : Ontology} {kind : ModelKind} {options : SolverOptions} {t : Topology} {m : Model}
  {plan : Noted Plan}

/-- One of the formulas of a law, compiled for the plan. -/
def compiled (p : Plan) (law : String) (markup : Law → String) : Except Fault Expression :=
  Formulas.compiled p.ontology p.model.selected p.names law markup

/-- The entry of the flux is that of the main state, with the suffix behind the name. -/
def FluxEntered (p : Plan) : Prop :=
  ∃ main ∈ p.model.states.head?, ∃ own, Names.ownEntry p.ontology main.name = .ok own ∧
    p.names.entryOf (main.name ++ fluxSuffix) = .ok ⟨own.name ++ fluxSuffix, own.shape⟩

/-- Every variable of the model is entered as itself, unless the flux is entered in its place. -/
theorem ofModel_entry (h : ofModel o kind options t m = .ok plan) (name : String)
    (hname : m.definitions.contains name = true) :
    ∃ own, Names.ownEntry o name = .ok own ∧
      (plan.result.names.entryOf name = .ok own ↔ m.fluxVariable ≠ some name) := by
  obtain ⟨bound, names, states, formulas, hb, hl, -, hp⟩ := ofModel_ok h
  obtain ⟨own, hown, hentry⟩ := Names.bindAll_own hb Dict.nodup_keys (Dict.contains_iff.1 hname)
  refine ⟨own, hown, ?_⟩
  rw [hp, fluxVariable_ne]
  exact VectorBlock.layAll_entry hl hentry

theorem ofModel_flux (hm : m.Listed) (hstates : m.states ≠ [])
    (h : ofModel o kind options t m = .ok plan) (hj : m.jointLaw.isSome = true) :
    plan.result.FluxEntered := by
  obtain ⟨bound, names, states, formulas, hb, hl, -, hp⟩ := ofModel_ok h
  obtain ⟨main, others, hs⟩ := List.exists_cons_of_ne_nil hstates
  have hmain := hm.states main (hs ▸ List.mem_cons_self)
  obtain ⟨own, hown, hentry⟩ := Names.bindAll_own hb Dict.nodup_keys (Dict.contains_iff.1 hmain)
  rw [hj, hs] at hl
  obtain ⟨c, hc, -, hflux⟩ := VectorBlock.layAll_flux hl
  rw [hentry] at hc
  cases hc
  rw [hp]
  exact ⟨main, by rw [hs]; rfl, own, hown, hflux⟩

end Plan

end Program

namespace Simulation

open Program Formula

variable {o : Ontology} {c : ModelContext} {options : SolverOptions}

/-- The tables of a plan are filled with what variables and laws make themselves, and only the two
keys with a suffix can take the place of another. -/
theorem tables_own_iff {p : Plan} (h : planOf o c options = .ok p) :
    (∀ name, p.model.definitions.contains name = true →
      ∃ own, Names.ownEntry o name = .ok own ∧
        (p.names.entryOf name = .ok own ↔ p.model.fluxVariable ≠ some name)) ∧
    (∀ law, p.model.Draws law →
      ∃ own, p.compiled law Law.formula = .ok own ∧
        (p.formulas.find? law = some own ↔ ∀ l ∈ p.model.jointLaw, law = l ++ fluxSuffix →
          p.compiled l Formulas.jointMarkup = .ok own)) ∧
    (∀ l ∈ p.model.jointLaw, p.FluxEntered ∧
      ∃ joint, p.compiled l Formulas.jointMarkup = .ok joint ∧
        p.formulas.find? (l ++ fluxSuffix) = some joint) ∧
    ∀ law, p.formulas.find? law ≠ none →
      p.model.Draws law ∨ ∃ l ∈ p.model.jointLaw, law = l ++ fluxSuffix := by
  obtain ⟨-, hm, plan, hplan, rfl⟩ := planOf_ok h
  obtain ⟨_, _, _, _, _, _, _, _, _, _, _, _, _, hstates, _⟩ := Model.resolve_ok hm
  have hflux := Plan.ofModel_flux (Model.resolve_listed hm) (by rw [hstates]; nofun) hplan
  obtain ⟨_, names, states, formulas, -, -, hf, hp⟩ := Plan.ofModel_ok hplan
  have hentry := Plan.ofModel_entry hplan
  obtain ⟨hdrawn, hjoint, hall⟩ := Formulas.find?_ofModel hm hf
  rw [hp] at hm hflux hentry hdrawn hjoint hall ⊢
  exact ⟨hentry, hdrawn,
    fun l hl => ⟨hflux (Option.isSome_of_mem hl), hjoint l hl⟩, hall⟩

section Dispersion

/-- A steady model in which `C` is integrated over `Z` up to `L`, jointly with a flow pattern. The
law of the given name computes `a` from the input of the given name, whose symbol is `q`. -/
def dispersion (law input : String) : Ontology where
  quantities := Dict.ofList
    [("C", ⟨.stateVariable, "C", none, Dict.empty, Dict.empty, none⟩),
      ("D", ⟨.modelParameter, "D", none, Dict.empty, Dict.empty, none⟩),
      ("L", ⟨.operationParameter, "L", none, Dict.empty, Dict.empty, none⟩),
      ("Z", ⟨.independentVariable, "Z", none, Dict.empty, Dict.empty, none⟩),
      ("a", ⟨.quantity, "a", none, Dict.empty, OrderedSet.ofList [law], none⟩),
      (input, ⟨.modelParameter, "q", none, Dict.empty, Dict.empty, none⟩)]
  laws := Dict.ofList
    [("Balance", ⟨"<mi>a</mi>", some "S", OrderedSet.ofList ["a"], Dict.empty, none, none,
        some "Z", some "L", some "C", none⟩),
      ("Dispersion", ⟨"<mi>D</mi>", some "F", OrderedSet.ofList ["D"], Dict.empty, none, none,
        none, none, none, some "<mi>D</mi>"⟩),
      (law, ⟨"<mi>q</mi>", none, OrderedSet.ofList [input], Dict.empty, none, none, none, none,
        none, none⟩)]
  units := Dict.empty

def dispersionContext : ModelContext :=
  ⟨.steady, Plant.empty, { Selection.empty with accumulation := "S", flowPattern := "F" }, []⟩

/-- The law computes `a`, the input is a variable of the model, and the joint formula is not that of
the law. -/
def dispersionPlanned (law input : String) (p : Plan) : Bool :=
  p.model.definitions.find? "a" = some (.derived law) ∧
    p.model.definitions.contains input = true ∧ p.model.fluxVariable = some "C_Flux" ∧
    p.model.jointLaw = some "Dispersion" ∧
    (p.compiled law Law.formula).toOption ≠
      (p.compiled "Dispersion" Formulas.jointMarkup).toOption

/-- With names of their own, law and input are found as themselves. A law that is named like the
flux of the joint law is not found, nor is an input that is named like the flux of the state. -/
theorem tables_own_iff_dispersion :
    (∃ p e b, planOf (dispersion "Rate" "k") dispersionContext .standard = .ok p ∧
      p.compiled "Rate" Law.formula = .ok e ∧ p.formulas.find? "Rate" = some e ∧
      Names.ownEntry (dispersion "Rate" "k") "k" = .ok b ∧ p.names.entryOf "k" = .ok b) ∧
    (∃ p e, planOf (dispersion "Dispersion_Flux" "k") dispersionContext .standard = .ok p ∧
      p.compiled "Dispersion_Flux" Law.formula = .ok e ∧
      p.formulas.find? "Dispersion_Flux" ≠ some e) ∧
    ∃ p b, planOf (dispersion "Rate" "C_Flux") dispersionContext .standard = .ok p ∧
      Names.ownEntry (dispersion "Rate" "C_Flux") "C_Flux" = .ok b ∧
      p.names.entryOf "C_Flux" ≠ .ok b := by
  have hplan (law input : String)
      (hp : (planOf (dispersion law input) dispersionContext .standard).toOption.any
        (dispersionPlanned law input) = true) :
      ∃ p, planOf (dispersion law input) dispersionContext .standard = .ok p ∧
        p.model.Draws law ∧ p.model.definitions.contains input = true ∧
        p.model.fluxVariable = some "C_Flux" ∧ p.model.jointLaw = some "Dispersion" ∧
        ∀ e, p.compiled law Law.formula = .ok e →
          p.compiled "Dispersion" Formulas.jointMarkup ≠ .ok e := by
    cases h : planOf (dispersion law input) dispersionContext .standard with
    | error e => simp [h, Except.toOption] at hp
    | ok p =>
      rw [h] at hp
      change dispersionPlanned law input p = true at hp
      simp only [dispersionPlanned, decide_eq_true_eq] at hp
      obtain ⟨ha, hinput, hflux, hjoint, hne⟩ := hp
      refine ⟨p, rfl, .inl ⟨"a", _, ha, rfl, List.mem_singleton_self _⟩, hinput, hflux, hjoint,
        fun e he hj => hne ?_⟩
      rw [he, hj]
  refine ⟨?_, ?_, ?_⟩
  · obtain ⟨p, h, hlaw, hinput, hflux, hjoint, -⟩ := hplan "Rate" "k" (by decide +kernel)
    obtain ⟨hentries, hformulas, -⟩ := tables_own_iff h
    obtain ⟨b, hb, hentry⟩ := hentries "k" hinput
    obtain ⟨e, he, hkept⟩ := hformulas "Rate" hlaw
    simp only [hflux, hjoint, Option.mem_some_iff, forall_eq'] at hentry hkept
    exact ⟨p, e, b, h, he, hkept.2 fun hk => absurd hk (by decide), hb, hentry.2 (by decide)⟩
  · obtain ⟨p, h, hlaw, -, -, hjoint, hne⟩ := hplan "Dispersion_Flux" "k" (by decide +kernel)
    obtain ⟨e, he, hkept⟩ := (tables_own_iff h).2.1 "Dispersion_Flux" hlaw
    simp only [hjoint, Option.mem_some_iff, forall_eq'] at hkept
    exact ⟨p, e, h, he, fun hk => hne e he (hkept.1 hk rfl)⟩
  · obtain ⟨p, h, -, hinput, hflux, -⟩ := hplan "Rate" "C_Flux" (by decide +kernel)
    obtain ⟨b, hb, hentry⟩ := (tables_own_iff h).1 "C_Flux" hinput
    exact ⟨p, b, h, hb, fun hk => hentry.1 hk hflux⟩

end Dispersion

end Simulation

end Kinetics

import Kinetics.Proofs.Hygiene.Program
import Kinetics.Proofs.Keys

/-!
# Kinetics.Proofs.Hygiene.Simulation

The names in an assembled program. Those of its variables stay apart, are identifiers, and are no
words of the language. Nothing but the symbols of the model keeps them apart from the names that the
program uses itself.
-/

namespace Kinetics

namespace Program

namespace Names

variable {n : Names} {name : String}

/-- The names of all bindings differ. -/
theorem Apart.nodup (h : n.Apart) : (n.bindings.values.map Binding.name).Nodup := by
  rw [Dict.values, List.map_map]
  have hkeys : (n.bindings.entries.map Prod.fst).Nodup := Dict.nodup_keys
  refine List.Nodup.map_on (fun e he e' he' hname => ?_) (List.Nodup.of_map _ hkeys)
  have hsymbol := h e.1 e'.1 e.2 e'.2 (Dict.find?_eq_some_iff.2 he) (Dict.find?_eq_some_iff.2 he')
    hname
  exact List.inj_on_of_nodup_map hkeys he he' hsymbol

theorem Spelled.identifier (h : n.Spelled) (hc : n.Calls name) :
    IsIdentifier name ∧ name ∉ reservedNames := by
  obtain ⟨symbol, b, hb, rfl⟩ := hc
  rcases h symbol b hb with hname | ⟨state, -, hname⟩
  · rw [hname]
    exact ⟨isIdentifier_nameOf symbol, nameOf_not_reserved symbol⟩
  · rw [hname]
    exact ⟨isIdentifier_flux (isIdentifier_nameOf state), flux_not_reserved _⟩

/-- A variable takes a name of the machinery exactly where its symbol spells it. -/
theorem Spelled.machinery_iff (h : n.Spelled) (hm : isMachinery name = true) :
    n.Calls name ↔ name ∉ reservedNames ∧ ∃ symbol ∈ n.bindings.keys, spelling symbol = name := by
  have hentry : ∀ symbol b, n.bindings.find? symbol = some b →
      (b.name = name ↔ spelling symbol = name ∧ name ∉ reservedNames) := by
    intro symbol b hb
    rcases h symbol b hb with hname | ⟨state, rfl, hname⟩
    · rw [hname]
      exact nameOf_eq_iff hm
    · rw [hname]
      exact flux_eq_iff hm
  constructor
  · rintro ⟨symbol, b, hb, hname⟩
    obtain ⟨hspelling, hfree⟩ := (hentry symbol b hb).1 hname
    exact ⟨hfree, symbol, Dict.mem_keys_of_find? hb, hspelling⟩
  · rintro ⟨hfree, symbol, hsymbol, hspelling⟩
    obtain ⟨b, hb⟩ := Option.isSome_iff_exists.1 (Dict.contains_iff.2 hsymbol)
    exact ⟨symbol, b, hb, (hentry symbol b hb).2 ⟨hspelling, hfree⟩⟩

end Names

end Program

namespace Simulation

open Program

variable {o : Ontology} {c : ModelContext} {options : SolverOptions} {s : Simulation} {p : Plan}
  {name : String}

/-- What is assigned in the function that a program defines. -/
theorem exists_tidy_body {statements : List Statement}
    (hcalled : ∀ b ∈ p.states, VectorBlock.Called p.names b)
    (h : statementsOf p = .ok statements) :
    ∃ body, statements = imports p ++ [Statement.blank, Statement.blank, lookUp, Statement.blank,
        Statement.blank, Statement.block "def simulate(parameter_table):" body] ∧
      Tidy p.names body := by
  obtain ⟨preparation, body, solution, hp, hb, hs, rfl⟩ := statementsOf_ok h
  have hblank : Tidy p.names [.blank] :=
    tidy_of_fixed (List.forall_mem_singleton.2 fixed_blank)
  have hderivative : Tidy p.names [.blank, .block "def derivative(_t, _y):" body, .blank] :=
    (hblank.append ((Plan.tidy_derivativeBody hcalled hb).block (by decide +kernel))).append hblank
  exact ⟨_, rfl, (((Plan.tidy_prepare hcalled hp).append hderivative).append
    (tidy_of_fixed (Plan.fixed_solve hs))).append (tidy_of_fixed (Plan.fixed_storeResults p))⟩

/-- The names of the variables of a program, the flux among them, all differ and are identifiers that
are not reserved. One of them is a name that the program uses itself exactly where a symbol of the
model spells that name; only then an assignment to a variable overwrites the machinery. A name that
the program makes from that of a variable tells which one and what for. -/
theorem names_hygienic (h : assemble o c options = .ok s) (hp : planOf o c options = .ok p) :
    (p.names.bindings.values.map Binding.name).Nodup ∧
    (∀ b ∈ p.states, p.names.Calls b.name ∧
      (b.joint = true → p.names.Calls (b.name ++ fluxSuffix))) ∧
    (∀ name, p.names.Calls name → IsIdentifier name ∧ name ∉ reservedNames) ∧
    (∀ name, isMachinery name = true → (p.names.Calls name ↔
      name ∉ reservedNames ∧ ∃ symbol ∈ p.names.bindings.keys, spelling symbol = name)) ∧
    ∃ front body, s.statements = front ++ [.block "def simulate(parameter_table):" body] ∧
      ∀ x ∈ Statement.targetsBy body, p.names.Calls x ∨ x ∈ machineryNames ∨
        ∃ u name, p.names.Calls name ∧ x = Purpose.text u name ∧ isMachinery x = true ∧
          x ∉ machineryNames ∧ ∀ u' name', x = Purpose.text u' name' → u' = u ∧ name' = name := by
  obtain ⟨p', hp', -, hstatements, -⟩ := assemble_ok h
  obtain rfl : p' = p := Except.ok.inj (hp'.symm.trans hp)
  obtain ⟨-, -, plan, hplan, rfl⟩ := planOf_ok hp
  obtain ⟨hspelled, hapart, hcalled⟩ := Plan.ofModel_named hplan
  obtain ⟨body, hbody, htidy⟩ := exists_tidy_body hcalled hstatements
  refine ⟨hapart.nodup, fun b hb => ⟨(hcalled b hb).state, (hcalled b hb).flux⟩,
    fun name => hspelled.identifier, fun name => hspelled.machinery_iff,
    imports plan.result ++ [.blank, .blank, lookUp, .blank, .blank], body, ?_, fun x hx => ?_⟩
  · rw [hbody, List.append_assoc]
    rfl
  obtain ⟨st, hst, hx⟩ := Statement.mem_targetsBy.1 hx
  rcases htidy st hst x hx with hvariable | ⟨u, name, hname, rfl⟩ | hm
  · exact .inl hvariable
  · obtain ⟨hmachinery, hfixed⟩ := Purpose.text_machinery u name
    refine .inr (.inr ⟨u, name, hname, rfl, hmachinery, hfixed, fun u' name' he => ?_⟩)
    obtain ⟨hu, hn⟩ := Purpose.text_inj he
    exact ⟨hu.symm, hn.symm⟩
  · exact .inr (.inl hm)

/-- The conversion with a rate that is written `float`. -/
def shadowing : Ontology where
  quantities := conversion.quantities.insert "r"
    ⟨.operationParameter, "float", none, OrderedSet.ofList [.stream, .reaction], Dict.empty, none⟩
  laws := conversion.laws.insert "Balance"
    ⟨"<mi>float</mi>", some "S", OrderedSet.ofList ["Stoichiometric_Coefficient", "r"], Dict.empty,
      none, none, some "Z", some "L", some "C", none⟩
  units := Dict.empty

/-- No variable of the conversion takes a name of the machinery, but a rate written `float` does. -/
theorem names_hygienic_conversion :
    (∃ p, planOf conversion conversionContext .standard = .ok p ∧
      (p.names.bindings.values.map Binding.name).Nodup ∧
      ∀ name, p.names.Calls name → isMachinery name = false) ∧
    ∃ p, planOf shadowing conversionContext .standard = .ok p ∧ p.names.Calls "float" := by
  constructor
  · obtain ⟨s, hs⟩ := conversion_assembles
    obtain ⟨p, hp, -⟩ := assemble_ok hs
    have hfree : (planOf conversion conversionContext .standard).toOption.any (fun p =>
        p.names.bindings.keys.all fun symbol => !isMachinery (spelling symbol)) = true := by
      decide +kernel
    simp only [hp, Except.toOption, Option.any_some, List.all_eq_true, Bool.not_eq_true'] at hfree
    obtain ⟨hnodup, -, -, hmachinery, -⟩ := names_hygienic hs hp
    refine ⟨p, hp, hnodup, fun name hname => ?_⟩
    by_contra hm
    obtain ⟨-, symbol, hsymbol, hspelling⟩ :=
      (hmachinery name (eq_true_of_ne_false hm)).1 hname
    rw [← hspelling] at hm
    exact hm (hfree symbol hsymbol)
  · obtain ⟨s, hs⟩ := exists_ok (show (assemble shadowing conversionContext
      .standard).toBool = true by decide +kernel)
    obtain ⟨p, hp, -⟩ := assemble_ok hs
    have hspelled : (planOf shadowing conversionContext .standard).toOption.any (fun p =>
        p.names.bindings.keys.any fun symbol => spelling symbol == "float") = true := by
      decide +kernel
    simp only [hp, Except.toOption, Option.any_some, List.any_eq_true, beq_iff_eq] at hspelled
    exact ⟨p, hp, ((names_hygienic hs hp).2.2.2.1 "float" (by decide +kernel)).2
      ⟨by decide +kernel, hspelled⟩⟩

end Simulation

end Kinetics

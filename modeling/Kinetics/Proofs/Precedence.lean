import Kinetics.Proofs.Program.Derivative
import Kinetics.Proofs.Program.Formulas
import Kinetics.Proofs.Simulation
import Mathlib.Data.List.Basic

/-!
# Kinetics.Proofs.Precedence

No use before definition in the derivative, as far as laws declare what their formulas use. The
computed variables are ordered by the inputs that laws declare, so a variable is assigned before
another one that uses it if the other one depends on it that way, and after it if the dependency
is declared the other way round.
-/

namespace Kinetics

namespace Simulation

open Program Relation

variable {o : Ontology} {c : ModelContext} {options : SolverOptions} {s : Simulation}

/-- The function that computes the derivative is part of the program, with this body. -/
def HasDerivative (s : Simulation) (body : List Statement) : Prop :=
  ∃ header before after, s.statements = header ++
    [.block "def simulate(parameter_table):"
      (before ++ .block "def derivative(_t, _y):" body :: after)]

/-- What the computed variables of a model are ordered by. -/
structure Ordered (o : Ontology) (s : Selection) (m : Model) (a : Activation)
    (deps : Dict String NameSet) : Prop where
  dependencies : Model.dependencies o s a m.definitions m.definitions.entries = .ok deps
  found : Order.ofDependencies deps = .ok m.order

theorem planOf_ordered {p : Plan} (h : planOf o c options = .ok p) :
    ∃ a deps, Model.Closes o c.selection p.topology a p.model.definitions ∧
      Ordered o c.selection p.model a deps := by
  obtain ⟨-, hm, -⟩ := planOf_ok h
  obtain ⟨a, deps, hclosed, hdeps, ho⟩ := Model.resolve_closes hm
  exact ⟨a, deps, hclosed, hdeps, ho⟩

theorem assemble_derivative (h : assemble o c options = .ok s) :
    ∃ p body, planOf o c options = .ok p ∧ p.derivativeBody = .ok body ∧ s.HasDerivative body := by
  obtain ⟨p, hp, -, hs, -⟩ := assemble_ok h
  obtain ⟨preparation, body, solution, -, hb, -, hstatements⟩ := statementsOf_ok hs
  refine ⟨p, body, hp, hb, imports p ++ [Statement.blank, .blank, lookUp, .blank, .blank],
    preparation ++ [Statement.blank], .blank :: (solution ++ p.storeResults), ?_⟩
  rw [hstatements]
  simp

theorem ne_of_uses {p : Plan} {name other : String} (h : planOf o c options = .ok p)
    (hm : ∀ name, name ∈ p.model.order ↔ Model.Computes p.model.definitions name)
    (hu : p.Uses name other) : name ≠ other := by
  rintro rfl
  obtain ⟨-, -, plan, hplan, rfl⟩ := planOf_ok h
  obtain ⟨bound, names, states, formulas, -, -, hf, hp⟩ := Plan.ofModel_ok hplan
  obtain ⟨d, law, e, symbol, hd, hcomp, hlaw, he, hin, hs, -⟩ := hu
  have hmem := (hm name).2 ⟨d, hd, hcomp⟩
  rw [hp] at hmem hd he hs
  exact Formulas.checkOwn_ok (Formulas.ofModel_ok hf) hmem hd hs hlaw he hin

section Order

variable {p : Plan} {a : Activation} {deps : Dict String NameSet} {body : List Statement}
  {name other : String}

theorem Ordered.mem_order (h : Ordered o c.selection p.model a deps) :
    name ∈ p.model.order ↔ Model.Computes p.model.definitions name :=
  (Model.order_sorted h.dependencies h.found).2 name

/-- A variable that the search comes to the end of first is assigned before the other one. -/
theorem Ordered.assigned_before (h : Ordered o c.selection p.model a deps)
    (hb : p.derivativeBody = .ok body)
    (hn : Model.Computes p.model.definitions name)
    (ho : Model.Computes p.model.definitions other)
    (hm : p.model.order.idxOf other < p.model.order.idxOf name) :
    ∃ own, p.compute name = .ok own ∧ p.AssignedBefore body other own := by
  obtain ⟨before, after, hsplit⟩ := List.append_of_mem (h.mem_order.2 hn)
  have hs := (Model.order_sorted h.dependencies h.found).1
  exact Plan.assigned_before_computed hb hsplit ((hs.idxOf_lt_iff hsplit).1 hm) ho

/-- What laws declare, directly or through others, puts a variable in front. -/
theorem Ordered.meets_of_declares (h : Ordered o c.selection p.model a deps)
    (hd : TransGen (Model.Declares o c.selection a p.model.definitions) name other) :
    Order.Meets deps other name deps.keys ∧ ¬Order.Meets deps name other deps.keys := by
  have hn : TransGen (Order.Needs deps) name other :=
    hd.lift id fun _ _ hx => (Model.needs_iff_declares h.dependencies).2 hx
  obtain ⟨_, ⟨d, _, _, hf, hcomp, _⟩, _⟩ := TransGen.head'_iff.1 hd
  have hs := (Model.order_sorted h.dependencies h.found).1
  obtain ⟨before, after, hsplit⟩ := List.append_of_mem (h.mem_order.2 ⟨d, hf, hcomp⟩)
  have hlt := (hs.idxOf_lt_iff hsplit).2 (hs.before_of_needs hsplit hn)
  have hne : name ≠ other := fun he => absurd (he ▸ hlt) (Nat.lt_irrefl _)
  rw [← Order.ofDependencies_meets hne.symm h.found, ← Order.ofDependencies_meets hne h.found]
  exact ⟨hlt, by omega⟩

end Order

/-- In the derivative, a variable that a formula uses is assigned before it exactly if the search
along declared inputs comes to its end first, which declaring it sees to; all are assigned before
the derivatives of the states. Declared inputs that lead back to where they come from leave no
program. -/
theorem assigned_before_use (o : Ontology) (c : ModelContext) (options : SolverOptions) :
    (∀ s, assemble o c options = .ok s → ∃ p a deps body, planOf o c options = .ok p ∧
      Model.Closes o c.selection p.topology a p.model.definitions ∧
      Ordered o c.selection p.model a deps ∧
      p.derivativeBody = .ok body ∧ s.HasDerivative body ∧
      (∀ name other, p.Uses name other → name ≠ other ∧
        (Order.Meets deps other name deps.keys →
          ∃ own, p.compute name = .ok own ∧ p.AssignedBefore body other own) ∧
        (¬Order.Meets deps other name deps.keys →
          ∃ own, p.compute other = .ok own ∧ p.AssignedBefore body name own)) ∧
      (∀ name other, TransGen (Model.Declares o c.selection a p.model.definitions) name other →
        Order.Meets deps other name deps.keys ∧ ¬Order.Meets deps name other deps.keys) ∧
      ∀ state ∈ p.states, ∀ name, Model.Computes p.model.definitions name →
        ∃ own, p.differentiate state = .ok own ∧ p.AssignedBefore body name own) ∧
    ∀ t a defs deps name, c.validate = .ok () → Topology.ofPlant c.plant = .ok t →
      Model.Closes o c.selection t a defs →
      Model.dependencies o c.selection a defs defs.entries = .ok deps →
      TransGen (Model.Declares o c.selection a defs) name name →
      ∃ e, assemble o c options = .error e ∧ e.report.code = .circularDependency := by
  refine ⟨fun s h => ?_, fun t a defs deps name hv ht hclosed hdeps hn => ?_⟩
  · obtain ⟨p, body, hp, hb, hs⟩ := assemble_derivative h
    obtain ⟨a, deps, hclosed, hord⟩ := planOf_ordered hp
    refine ⟨p, a, deps, body, hp, hclosed, hord, hb, hs, fun name other hu => ?_,
      fun name other hd => hord.meets_of_declares hd, fun state hstate name hc =>
        Plan.assigned_before_derivative hb hstate (hord.mem_order.2 hc) hc⟩
    have hne := ne_of_uses hp (fun _ => hord.mem_order) hu
    obtain ⟨d, _, _, _, hd, hcomp, _, _, _, _, ho⟩ := hu
    have hname : Model.Computes p.model.definitions name := ⟨d, hd, hcomp⟩
    have hmeets := Order.ofDependencies_meets hne.symm hord.found
    refine ⟨hne, fun hm => hord.assigned_before hb hname ho (hmeets.2 hm), fun hm => ?_⟩
    refine hord.assigned_before hb ho hname ?_
    have hle : p.model.order.idxOf name ≤ p.model.order.idxOf other :=
      Nat.le_of_not_lt fun hlt => hm (hmeets.1 hlt)
    refine Nat.lt_of_le_of_ne hle fun he => hne ?_
    exact (List.idxOf_inj (hord.mem_order.2 hname)).1 he
  · obtain ⟨e, he, hcode⟩ := Model.resolve_cyclic hclosed hdeps hn
    refine ⟨e, ?_, hcode⟩
    simp only [assemble, hv, ht, he, bind, Except.bind]

section Chain

/-- A steady model in which `C` is integrated over `Z` up to `L` with the derivative `a`; `a` is
computed from `b`, and `b` from the given symbol. The law of `a` declares the given inputs. -/
def chain (declared : List String) (symbol : String) : Ontology where
  quantities := Dict.ofList
    [("C", ⟨.stateVariable, "C", none, Dict.empty, Dict.empty, none⟩),
      ("L", ⟨.operationParameter, "L", none, Dict.empty, Dict.empty, none⟩),
      ("Z", ⟨.independentVariable, "Z", none, Dict.empty, Dict.empty, none⟩),
      ("a", ⟨.quantity, "a", none, Dict.empty, OrderedSet.ofList ["La"], none⟩),
      ("b", ⟨.quantity, "b", none, Dict.empty, OrderedSet.ofList ["Lb"], none⟩)]
  laws := Dict.ofList
    [("Acc", ⟨"<mi>a</mi>", some "S", OrderedSet.ofList ["a", "b"], Dict.empty, none, none,
        some "Z", some "L", some "C", none⟩),
      ("La", ⟨"<mi>b</mi>", none, OrderedSet.ofList declared, Dict.empty, none, none, none, none,
        none, none⟩),
      ("Lb", ⟨"<mi>" ++ symbol ++ "</mi>", none, OrderedSet.ofList [symbol], Dict.empty, none, none,
        none, none, none, none⟩)]
  units := Dict.empty

def chainContext : ModelContext :=
  ⟨.steady, Plant.empty, { Selection.empty with accumulation := "S" }, []⟩

def chainDefinitions : Dict String Definition :=
  Dict.ofList [("C", .state "Acc"), ("L", .leaf), ("Z", .independent), ("a", .derived "La"),
    ("b", .derived "Lb")]

def chainActivation : Activation :=
  ⟨Dict.empty, Dict.empty, Dict.ofList [("C", "Acc")], OrderedSet.ofList ["Acc"]⟩

theorem chain_closes : Model.Closes (chain ["b"] "a") chainContext.selection ⟨[], [], [], [], []⟩
    chainActivation chainDefinitions := by
  refine ⟨⟨"Acc", _, "C", "Z", "L"⟩, ⟨chainActivation, none, []⟩, ["C", "Z", "L", "a", "b", "C"],
    rfl, rfl, rfl, ?_, ?_⟩ <;> decide +kernel

theorem chain_cycle : TransGen (Model.Declares (chain ["b"] "a") chainContext.selection
    chainActivation chainDefinitions) "a" "a" := by
  have hab : Model.Declares (chain ["b"] "a") chainContext.selection chainActivation
      chainDefinitions "a" "b" := by
    refine ⟨.derived "La", "La", _, rfl, rfl, List.mem_singleton_self _, rfl, ?_, .derived "Lb",
      rfl, rfl⟩
    decide +kernel
  have hba : Model.Declares (chain ["b"] "a") chainContext.selection chainActivation
      chainDefinitions "b" "a" := by
    refine ⟨.derived "Lb", "Lb", _, rfl, rfl, List.mem_singleton_self _, rfl, ?_, .derived "La",
      rfl, rfl⟩
    decide +kernel
  exact .tail (.single hab) hba

/-- Both variables are computed, in this order, and the formula of `a` contains `b`. -/
def chainPlanned (order : List String) (p : Plan) : Bool :=
  p.model.definitions.find? "a" = some (.derived "La") ∧
    p.model.definitions.find? "b" = some (.derived "Lb") ∧
    (p.formulas.find? "La").any (fun e => e.freeSymbols.toList.contains "b") ∧
    p.names.symbols.find? "b" = some "b" ∧ p.model.order = order

theorem chain_uses {p : Plan} (order : List String) (h : planOf o c options = .ok p)
    (hp : (planOf o c options).toOption.any (chainPlanned order) = true) :
    p.Uses "a" "b" ∧ p.model.order = order := by
  simp only [h, Except.toOption, Option.any_some, chainPlanned, decide_eq_true_eq,
    Option.any_eq_true] at hp
  obtain ⟨ha, hb, ⟨e, he, hin⟩, hs, ho⟩ := hp
  exact ⟨⟨_, "La", e, "b", ha, rfl, List.mem_singleton_self _, he, by simpa using hin, hs, _, hb,
    rfl⟩, ho⟩

/-- Declared, `b` is assigned before `a`; not declared, it is assigned after it; and if `b` is
computed from `a`, too, there is no program. -/
theorem assigned_before_use_chain :
    (∃ s body, ∃ p : Plan, ∃ own, assemble (chain ["b"] "L") chainContext .standard = .ok s ∧
      s.HasDerivative body ∧ p.Uses "a" "b" ∧ p.compute "a" = .ok own ∧
      p.AssignedBefore body "b" own) ∧
    (∃ s body, ∃ p : Plan, ∃ own, assemble (chain [] "L") chainContext .standard = .ok s ∧
      s.HasDerivative body ∧ p.Uses "a" "b" ∧ p.compute "b" = .ok own ∧
      p.AssignedBefore body "a" own) ∧
    ∃ e, assemble (chain ["b"] "a") chainContext .standard = .error e ∧
      e.report.code = .circularDependency := by
  refine ⟨?_, ?_, ?_⟩
  · obtain ⟨s, hs⟩ := exists_ok (show (assemble (chain ["b"] "L") chainContext
      .standard).toBool = true by decide +kernel)
    obtain ⟨p, a, deps, body, hp, -, hord, -, hbody, huses, -⟩ :=
      (assigned_before_use (chain ["b"] "L") chainContext .standard).1 s hs
    obtain ⟨hu, ho⟩ := chain_uses ["b", "a"] hp (by decide +kernel)
    have hmeets := Order.ofDependencies_meets (by decide : "b" ≠ "a") hord.found
    rw [ho] at hmeets
    obtain ⟨own, hown, hbefore⟩ := (huses "a" "b" hu).2.1 (hmeets.1 (by decide))
    exact ⟨s, body, p, own, hs, hbody, hu, hown, hbefore⟩
  · obtain ⟨s, hs⟩ := exists_ok (show (assemble (chain [] "L") chainContext
      .standard).toBool = true by decide +kernel)
    obtain ⟨p, a, deps, body, hp, -, hord, -, hbody, huses, -⟩ :=
      (assigned_before_use (chain [] "L") chainContext .standard).1 s hs
    obtain ⟨hu, ho⟩ := chain_uses ["a", "b"] hp (by decide +kernel)
    have hmeets := Order.ofDependencies_meets (by decide : "b" ≠ "a") hord.found
    rw [ho] at hmeets
    obtain ⟨own, hown, hbefore⟩ := (huses "a" "b" hu).2.2 fun hm =>
      absurd (hmeets.2 hm) (by decide)
    exact ⟨s, body, p, own, hs, hbody, hu, hown, hbefore⟩
  · exact (assigned_before_use (chain ["b"] "a") chainContext .standard).2 ⟨[], [], [], [], []⟩
      chainActivation chainDefinitions
      (Dict.ofList [("a", OrderedSet.ofList ["b"]), ("b", OrderedSet.ofList ["a"])]) "a" rfl rfl
      chain_closes (by decide +kernel) chain_cycle

end Chain

end Simulation

end Kinetics

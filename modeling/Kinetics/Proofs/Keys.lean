import Kinetics.Proofs.Parameter.Table
import Kinetics.Proofs.Program.Binding
import Kinetics.Proofs.Program.Reads
import Kinetics.Proofs.Model.States
import Kinetics.Proofs.Simulation

/-!
# Kinetics.Proofs.Keys

A program, its parameter table and its results use the same keys. Table, reads and results are
made one by one, but all three go through the points of a variable's shape; so what they say of a
key can be told from the variable that the key names.
-/

namespace Kinetics

namespace Simulation

open Program

variable {o : Ontology} {c : ModelContext} {options : SolverOptions} {s : Simulation} {p : Plan}
  {t : Topology} {k : ParameterIndex} {name : String}

/-- The key names a point that its variable has. -/
def Indexed (o : Ontology) (t : Topology) (k : ParameterIndex) : Prop :=
  ∃ v shape, o.variableOf k.name = .ok v ∧ Names.layoutShape k.name v = .ok shape ∧
    k ∈ t.indicesOver k.name shape

theorem name_of_mem_indicesOver {shape : Shape} (h : k ∈ t.indicesOver name shape) :
    k.name = name := by
  obtain ⟨q, -, rfl⟩ := List.mem_map.1 h
  rfl

theorem mem_indicesOver_iff {v : Variable} {shape : Shape} (hv : o.variableOf name = .ok v)
    (hs : Names.layoutShape name v = .ok shape) :
    k ∈ t.indicesOver name shape ↔ k.name = name ∧ Indexed o t k := by
  constructor
  · intro h
    obtain rfl := name_of_mem_indicesOver h
    exact ⟨rfl, v, shape, hv, hs, h⟩
  · rintro ⟨rfl, v', shape', hv', hs', h⟩
    rw [hv] at hv'
    cases hv'
    rw [hs] at hs'
    cases hs'
    exact h

section Table

variable {m : Model} {known : List KnownValue} {table : ParameterTable}

/-- What the table lists: the points of inputs, of states and of the coefficients. -/
theorem mem_table (h : ParameterTable.build o known t m = .ok table)
    (hv : ∀ name, m.definitions.contains name = true → ∃ v, o.variableOf name = .ok v)
    (hr : ∀ r ∈ t.reactions, ∀ p ∈ r.participants, p.1 ∈ t.species) :
    k ∈ table.indices ↔ Indexed o t k ∧ ∃ d, m.definitions.find? k.name = some d ∧
      (d.isTabled = true ∨ k.name = Reaction.coefficientName) := by
  rw [ParameterTable.mem_indices_build h, Topology.mem_stoichiometry hr]
  constructor
  · rintro (⟨name, d, v, shape, hm, ht, hne, hvar, hs, hk⟩ | ⟨hc, hk⟩)
    · have hlayout : Names.layoutShape name v = .ok shape := by
        rw [Names.layoutShape, if_neg hne, hs]
      obtain ⟨rfl, hin⟩ := (mem_indicesOver_iff hvar hlayout).1 hk
      exact ⟨hin, d, Dict.find?_eq_some_iff.2 hm, .inl ht⟩
    · obtain ⟨v, hvar⟩ := hv _ hc
      obtain ⟨d, hd⟩ := Option.isSome_iff_exists.1 hc
      obtain ⟨hname, hin⟩ := (mem_indicesOver_iff hvar (if_pos rfl)).1 hk
      exact ⟨hin, d, hname ▸ hd, .inr hname⟩
  · rintro ⟨⟨v, shape, hvar, hs, hk⟩, d, hd, ht⟩
    by_cases hc : k.name = Reaction.coefficientName
    · rw [Names.layoutShape, if_pos hc] at hs
      cases hs
      rw [hc] at hk hd
      exact .inr ⟨by rw [Dict.contains, hd]; rfl, hk⟩
    · rw [Names.layoutShape, if_neg hc] at hs
      exact .inl ⟨k.name, d, v, shape, Dict.find?_eq_some_iff.1 hd, ht.resolve_right hc, hc, hvar,
        hs, hk⟩

end Table

/-- The names of a plan say of every variable of the model, and of every block, which shape it
has. -/
structure Faithful (o : Ontology) (p : Plan) : Prop where
  shaped : ∀ name, p.model.definitions.contains name = true → Names.Shaped o p.names name
  blocks : ∀ b ∈ p.states, (∃ law, p.model.definitions.find? b.variableName = some (.state law)) ∧
    ∃ c, p.names.entryOf b.variableName = .ok c ∧ b.shape = c.shape
  flux : ∀ b ∈ p.states, b.joint = true →
    ∃ main ∈ p.model.states.head?, b.variableName = main.name

namespace Faithful

variable {b : VectorBlock}

theorem mem_indicesOver (h : Faithful o p) {e : Binding} (hc : p.model.definitions.contains name = true)
    (he : p.names.entryOf name = .ok e) :
    k ∈ t.indicesOver name e.shape ↔ k.name = name ∧ Indexed o t k := by
  obtain ⟨v, shape, e', hv, hs, he', rfl⟩ := h.shaped name hc
  rw [he] at he'
  cases he'
  exact mem_indicesOver_iff hv hs

theorem mem_block (h : Faithful o p) (hb : b ∈ p.states) :
    k ∈ t.indicesOver b.variableName b.shape ↔ k.name = b.variableName ∧ Indexed o t k := by
  obtain ⟨⟨law, hd⟩, e, he, hs⟩ := h.blocks b hb
  rw [hs]
  refine h.mem_indicesOver ?_ he
  rw [Dict.contains, hd]
  rfl

/-- What the program reads: the points of inputs and of states. -/
theorem mem_reads (h : Faithful o p) {ss : List Statement} (hss : statementsOf p = .ok ss) :
    k ∈ Statement.keysReadBy ss ↔ Indexed o p.topology k ∧
      (p.model.definitions.find? k.name = some .leaf ∨
        ∃ b ∈ p.states, b.variableName = k.name) := by
  obtain ⟨inputs, hi, hk⟩ := mem_statements hss
  rw [hk, Plan.mem_readInputs hi, Plan.mem_readStates]
  constructor
  · rintro (⟨name, e, hd, he, hk⟩ | ⟨b, hb, hk⟩)
    · have hc : p.model.definitions.contains name = true := by rw [Dict.contains, hd]; rfl
      obtain ⟨rfl, hin⟩ := (h.mem_indicesOver hc he).1 hk
      exact ⟨hin, .inl hd⟩
    · obtain ⟨hname, hin⟩ := (h.mem_block hb).1 hk
      exact ⟨hin, .inr ⟨b, hb, hname.symm⟩⟩
  · rintro ⟨hin, hd | ⟨b, hb, hname⟩⟩
    · have hc : p.model.definitions.contains k.name = true := by rw [Dict.contains, hd]; rfl
      obtain ⟨v, shape, e, hv, hs, he, rfl⟩ := h.shaped k.name hc
      exact .inl ⟨k.name, e, hd, he, (mem_indicesOver_iff hv hs).2 ⟨rfl, hin⟩⟩
    · exact .inr ⟨b, hb, (h.mem_block hb).2 ⟨hname.symm, hin⟩⟩

end Faithful

/-- A plan is faithful where no state is integrated over and the name of the flux is free. -/
theorem planOf_faithful (h : planOf o c options = .ok p)
    (hstates : ∀ e ∈ p.model.states, e.name ≠ p.model.integralVariable)
    (hflux : ∀ main ∈ p.model.states.head?,
      p.model.definitions.contains (main.name ++ fluxSuffix) = false) : Faithful o p := by
  obtain ⟨-, hm, plan, hplan, rfl⟩ := planOf_ok h
  obtain ⟨bound, names, states, formulas, hb, hl, -, hp⟩ := Plan.ofModel_ok hplan
  obtain ⟨hvariables, hdefined⟩ := Model.resolve_defines hm
  obtain ⟨hkeep, hstores, hjoint⟩ := VectorBlock.layAll_stores hl
  have hfree : ∀ name, plan.result.model.definitions.contains name = true →
      ∀ main ∈ plan.result.model.states.head?, name ≠ main.name ++ fluxSuffix := by
    rintro name hc main hmain rfl
    rw [hflux main hmain] at hc
    cases hc
  have hcontains : ∀ e ∈ plan.result.model.states,
      plan.result.model.definitions.contains e.name = true := by
    intro e he
    obtain ⟨law, hd⟩ := hdefined e he (hstates e he)
    rw [Dict.contains, hd]
    rfl
  have hblocks := hstores fun e he => hfree e.name (hcontains e he)
  have hnames : plan.result.names = names := by rw [hp]
  have hlaid : plan.result.states = states := by rw [hp]
  constructor
  case shaped =>
    intro name hc
    obtain ⟨v, shape, e, hv, hs, he, hshape⟩ :=
      Names.bindAll_shaped hb name (.inl (Dict.contains_iff.1 hc))
    rw [hnames]
    exact ⟨v, shape, e, hv, hs, hkeep name e (hfree name hc) he, hshape⟩
  case blocks =>
    intro b hin
    rw [hlaid] at hin
    obtain ⟨e, he, hname, hentry⟩ := hblocks b hin
    rw [hname, hnames]
    exact ⟨hdefined e he (hstates e he), hentry⟩
  case flux =>
    intro b hin
    rw [hlaid] at hin
    exact hjoint b hin

/-- Reads, table and results agree on the keys of inputs and states, the coefficients among them. -/
theorem reads_agree (h : assemble o c options = .ok s) :
    ∃ p, planOf o c options = .ok p ∧
      ((∀ e ∈ p.model.states, e.name ≠ p.model.integralVariable) →
       (∀ main ∈ p.model.states.head?,
        p.model.definitions.contains (main.name ++ fluxSuffix) = false) →
        (∀ k ∈ Statement.keysReadBy s.statements, k ∈ s.table.indices) ∧
        (∀ k ∈ s.table.indices, (p.model.definitions.find? k.name = some .leaf ∨
            ∃ b ∈ p.states, b.variableName = k.name) → k ∈ Statement.keysReadBy s.statements) ∧
        (∀ k, (k ∈ s.resultKeys.tail ∧ ∀ main ∈ p.model.states.head?,
            k.name ≠ main.name ++ fluxSuffix) ↔
          k ∈ s.table.indices ∧ ∃ b ∈ p.states, b.variableName = k.name) ∧
        ∀ k, k ∈ (Reaction.stoichiometry p.topology.reactions).map Prod.fst ↔
          k ∈ p.topology.indicesOver Reaction.coefficientName .reactionSpecies) := by
  obtain ⟨p, hp, htable, hstatements, hresults⟩ := assemble_ok h
  refine ⟨p, hp, fun hstates hflux => ?_⟩
  obtain ⟨ht, hm, -⟩ := planOf_ok hp
  have hdeclared := Topology.ofPlant_declared ht
  have hfaithful := planOf_faithful hp hstates hflux
  have hin (k : ParameterIndex) := mem_table (k := k) htable (Model.resolve_defines hm).1 hdeclared
  have hreads (k : ParameterIndex) := hfaithful.mem_reads (k := k) hstatements
  -- states are listed in the table, since their definitions say that they are states
  have hstate : ∀ k : ParameterIndex, (∃ b ∈ p.states, b.variableName = k.name) →
      Indexed o p.topology k → k ∈ s.table.indices := by
    rintro k ⟨b, hb, hname⟩ hk
    obtain ⟨⟨law, hd⟩, -⟩ := hfaithful.blocks b hb
    rw [hname] at hd
    exact (hin k).2 ⟨hk, _, hd, .inl rfl⟩
  refine ⟨fun k hk => ?_, fun k hk hvariable => ?_, fun k => ?_, fun k =>
    Topology.mem_stoichiometry hdeclared⟩
  · obtain ⟨hindexed, hd | hb⟩ := (hreads k).1 hk
    · exact (hin k).2 ⟨hindexed, _, hd, .inl rfl⟩
    · exact hstate k hb hindexed
  · exact (hreads k).2 ⟨((hin k).1 hk).1, hvariable⟩
  · rw [hresults, Plan.resultKeys, List.tail_cons, Plan.mem_rows_keys]
    constructor
    · rintro ⟨⟨b, hb, hk | ⟨hj, hk⟩⟩, hname⟩
      · obtain ⟨hname, hindexed⟩ := (hfaithful.mem_block hb).1 hk
        exact ⟨hstate k ⟨b, hb, hname.symm⟩ hindexed, b, hb, hname.symm⟩
      · obtain ⟨main, hmain, hb⟩ := hfaithful.flux b hb hj
        exact absurd (name_of_mem_indicesOver hk) (hb ▸ hname main hmain)
    · rintro ⟨hk, b, hb, hname⟩
      refine ⟨⟨b, hb, .inl ((hfaithful.mem_block hb).2 ⟨hname.symm, ((hin k).1 hk).1⟩)⟩,
        fun main hmain he => ?_⟩
      obtain ⟨⟨law, hd⟩, -⟩ := hfaithful.blocks b hb
      have hc := hflux main hmain
      rw [← he, ← hname, Dict.contains, hd] at hc
      cases hc

section Conversion

/-- A steady model of one reaction in a stream, with the rate `r` read from the table. -/
def conversion : Ontology where
  quantities := Dict.ofList
    [("C", ⟨.stateVariable, "C", none, OrderedSet.ofList [.stream, .species], Dict.empty, none⟩),
      ("L", ⟨.operationParameter, "L", none, Dict.empty, Dict.empty, none⟩),
      ("Stoichiometric_Coefficient", ⟨.modelParameter, "nu", none, Dict.empty, Dict.empty, none⟩),
      ("Z", ⟨.independentVariable, "Z", none, Dict.empty, Dict.empty, none⟩),
      ("r", ⟨.operationParameter, "r", none, OrderedSet.ofList [.stream, .reaction], Dict.empty,
        none⟩)]
  laws := Dict.ofList
    [("Balance", ⟨"<mi>r</mi>", some "S",
      OrderedSet.ofList ["Stoichiometric_Coefficient", "r"], Dict.empty, none, none, some "Z",
      some "L", some "C", none⟩)]
  units := Dict.empty

def conversionContext : ModelContext :=
  ⟨.steady, { Plant.empty with
      species := ["A", "B"]
      reactions := ["A > B"]
      streams := Dict.ofList [("Liquid", ["A", "B"])] },
    { Selection.empty with accumulation := "S" }, []⟩

theorem conversion_assembles : ∃ s, assemble conversion conversionContext .standard = .ok s :=
  exists_ok (by decide +kernel)

end Conversion

end Simulation

end Kinetics

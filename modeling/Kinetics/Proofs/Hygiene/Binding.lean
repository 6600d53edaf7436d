import Kinetics.Proofs.Hygiene.Name
import Kinetics.Proofs.Program.Binding
import Kinetics.Proofs.Program.Plan

/-!
# Kinetics.Proofs.Hygiene.Binding

What variables are called. Binding refuses a name that is taken, so that the names of all variables,
the flux among them, stay apart; each one comes from the symbol that it is bound under. Blocks of
states go by names that are bound.
-/

namespace Kinetics

namespace Program

namespace Names

variable {n n' : Names} {o : Ontology} {symbol variableName : String} {b : Binding}

/-- Every name comes from the symbol that it is bound under, as that of a variable. -/
def Plain (n : Names) : Prop :=
  ∀ symbol b, n.bindings.find? symbol = some b → b.name = nameOf symbol

/-- Every name comes from the symbol that it is bound under, as that of a variable or of a flux. -/
def Spelled (n : Names) : Prop :=
  ∀ symbol b, n.bindings.find? symbol = some b → b.name = nameOf symbol ∨
    ∃ state, symbol = state ++ fluxSuffix ∧ b.name = nameOf state ++ fluxSuffix

/-- No two symbols have one name. -/
def Apart (n : Names) : Prop :=
  ∀ s s' b b', n.bindings.find? s = some b → n.bindings.find? s' = some b' → b.name = b'.name →
    s = s'

theorem Plain.spelled (h : n.Plain) : n.Spelled :=
  fun symbol b hb => .inl (h symbol b hb)

/-- What is bound after a binding is the new one or was bound before. -/
theorem find?_bind (h : n.bind symbol variableName b = .ok n') {s : String} {c : Binding}
    (hc : n'.bindings.find? s = some c) : (s = symbol ∧ c = b) ∨ n.bindings.find? s = some c := by
  obtain ⟨-, -, rfl⟩ := bind_ok h
  by_cases hs : s = symbol
  · subst hs
    rw [Dict.find?_insert_self] at hc
    exact .inl ⟨rfl, (Option.some.inj hc).symm⟩
  · rw [Dict.find?_insert_of_ne hs] at hc
    exact .inr hc

theorem Calls.bind {name : String} (hc : n.Calls name)
    (h : n.bind symbol variableName b = .ok n') : n'.Calls name := by
  obtain ⟨hnew, -, rfl⟩ := bind_ok h
  obtain ⟨s, c, hc, rfl⟩ := hc
  exact ⟨s, c, Dict.find?_insert_new hnew hc, rfl⟩

theorem calls_bind (h : n.bind symbol variableName b = .ok n') : n'.Calls b.name := by
  obtain ⟨-, -, rfl⟩ := bind_ok h
  exact ⟨symbol, b, Dict.find?_insert_self _ _ _, rfl⟩

theorem Apart.bind (hn : n.Apart) (h : n.bind symbol variableName b = .ok n') : n'.Apart := by
  obtain ⟨-, hfree, -⟩ := bind_ok h
  intro s s' c c' hc hc' hname
  rcases find?_bind h hc with ⟨rfl, rfl⟩ | hc
  · rcases find?_bind h hc' with ⟨rfl, rfl⟩ | hc'
    · rfl
    · exact absurd ⟨s', c', hc', hname.symm⟩ hfree
  · rcases find?_bind h hc' with ⟨rfl, rfl⟩ | hc'
    · exact absurd ⟨s, c, hc, hname⟩ hfree
    · exact hn s s' c c' hc hc' hname

theorem Plain.bind {shape : Shape} (hn : n.Plain)
    (h : n.bind symbol variableName ⟨nameOf symbol, shape⟩ = .ok n') : n'.Plain := by
  intro s c hc
  rcases find?_bind h hc with ⟨rfl, rfl⟩ | hc
  · rfl
  · exact hn s c hc

theorem bindAll_plain {names : List String} {bound : Formula.Noted Names}
    (h : bindAll o n names = .ok bound) (hn : n.Plain ∧ n.Apart) :
    bound.result.Plain ∧ bound.result.Apart := by
  induction names generalizing n bound with
  | nil =>
    cases h
    exact hn
  | cons name names ih =>
    simp only [bindAll, Kinetics.bind_ok, pure_ok] at h
    obtain ⟨v, -, symbol, -, shape, -, n', hn', rest, hrest, rfl⟩ := h
    have hall := ih hrest ⟨hn.1.bind hn', hn.2.bind hn'⟩
    exact hall

theorem calls_of_entryOf {name : String} (h : n.entryOf name = .ok b) : n.Calls b.name := by
  obtain ⟨symbol, -, hb⟩ := entryOf_ok.1 h
  exact ⟨symbol, b, hb, rfl⟩

/-- Every variable has a symbol of its own, and the symbol is bound. -/
structure Separate (n : Names) : Prop where
  bound : ∀ v s, n.symbols.find? v = some s → ∃ b, n.bindings.find? s = some b
  own : ∀ v w s, n.symbols.find? v = some s → n.symbols.find? w = some s → v = w

/-- Which symbol a variable has after a binding. -/
theorem symbol_bind (h : n.bind symbol variableName b = .ok n') {v s : String}
    (hs : n'.symbols.find? v = some s) :
    v = variableName ∧ s = symbol ∨ n.symbols.find? v = some s := by
  obtain ⟨-, -, rfl⟩ := bind_ok h
  by_cases hv : v = variableName
  · subst hv
    rw [Dict.find?_insert_self] at hs
    exact .inl ⟨rfl, (Option.some.inj hs).symm⟩
  · rw [Dict.find?_insert_of_ne hv] at hs
    exact .inr hs

theorem Separate.bind (hn : n.Separate) (h : n.bind symbol variableName b = .ok n') :
    n'.Separate := by
  obtain ⟨hnew, -, hn'⟩ := bind_ok h
  have hfree : ∀ v, n.symbols.find? v ≠ some symbol := by
    intro v hv
    obtain ⟨c, hc⟩ := hn.bound v symbol hv
    rw [hnew] at hc
    cases hc
  constructor
  case bound =>
    intro v s hs
    rcases symbol_bind h hs with ⟨-, rfl⟩ | hs
    · exact ⟨b, hn' ▸ Dict.find?_insert_self _ _ _⟩
    · obtain ⟨c, hc⟩ := hn.bound v s hs
      exact ⟨c, hn' ▸ Dict.find?_insert_new hnew hc⟩
  case own =>
    intro v w s hv hw
    rcases symbol_bind h hv with ⟨rfl, rfl⟩ | hv
    · rcases symbol_bind h hw with ⟨rfl, -⟩ | hw
      · rfl
      · exact absurd hw (hfree w)
    · rcases symbol_bind h hw with ⟨rfl, rfl⟩ | hw
      · exact absurd hv (hfree v)
      · exact hn.own v w s hv hw

theorem bindAll_separate {names : List String} {bound : Formula.Noted Names}
    (h : bindAll o n names = .ok bound) (hn : n.Separate) : bound.result.Separate := by
  induction names generalizing n bound with
  | nil =>
    cases h
    exact hn
  | cons name names ih =>
    simp only [bindAll, Kinetics.bind_ok, pure_ok] at h
    obtain ⟨v, -, symbol, -, shape, -, n', hn', rest, hrest, rfl⟩ := h
    exact (ih hrest (hn.bind hn') :)

/-- Names tell variables apart. -/
theorem Separate.eq_of_name (hn : n.Separate) (ha : n.Apart) {v w : String} {c : Binding}
    (hv : n.entryOf v = .ok b) (hw : n.entryOf w = .ok c) (hname : b.name = c.name) : v = w := by
  obtain ⟨s, hs, hb⟩ := entryOf_ok.1 hv
  obtain ⟨s', hs', hc⟩ := entryOf_ok.1 hw
  obtain rfl := ha s s' b c hb hc hname
  exact hn.own v w s hs hs'

end Names

namespace VectorBlock

open Names

variable {t : Topology} {n n' : Names} {o : Nat} {e : StateEquation} {joint : Bool}
  {states : List StateEquation} {blocks : List VectorBlock} {b : VectorBlock}

theorem bindFlux_spelled (h : bindFlux n e = .ok n') (hn : n.Plain) : n'.Spelled := by
  obtain ⟨symbol, c, -, hc, -, hbind⟩ := bindFlux_ok h
  intro s b hb
  rcases find?_bind hbind hb with ⟨rfl, rfl⟩ | hb
  · exact .inr ⟨symbol, rfl, by rw [hn symbol c hc]⟩
  · exact .inl (hn s b hb)

/-- The name of a block is bound, and so is that of its flux if it has one. -/
structure Called (n : Names) (b : VectorBlock) : Prop where
  state : n.Calls b.name
  flux : b.joint = true → n.Calls (b.name ++ fluxSuffix)

theorem layAll_called_plain (h : layAll t n false o states = .ok (n', blocks)) :
    ∀ b ∈ blocks, Called n b := by
  induction states generalizing o blocks with
  | nil =>
    cases h
    intro b hb
    cases hb
  | cons e states ih =>
    obtain ⟨c, n₁, rest, hc, hn₁, hrest, rfl⟩ := layAll_cons_ok h
    cases hn₁
    intro b hb
    rcases List.mem_cons.1 hb with rfl | hb
    · exact ⟨calls_of_entryOf hc, fun hj => Bool.noConfusion hj⟩
    · exact ih hrest b hb

/-- Laying out states keeps names apart, and blocks go by names that are bound. -/
theorem layAll_called (h : layAll t n joint o states = .ok (n', blocks))
    (hn : n.Plain ∧ n.Apart) : n'.Spelled ∧ n'.Apart ∧ ∀ b ∈ blocks, Called n' b := by
  cases states with
  | nil =>
    cases h
    exact ⟨hn.1.spelled, hn.2, nofun⟩
  | cons e states =>
    obtain ⟨c, n₁, rest, hc, hn₁, hrest, rfl⟩ := layAll_cons_ok h
    obtain rfl := (layAll_plain hrest).1
    have htail := layAll_called_plain hrest
    cases joint with
    | false =>
      cases hn₁
      refine ⟨hn.1.spelled, hn.2, fun b hb => ?_⟩
      rcases List.mem_cons.1 hb with rfl | hb
      · exact ⟨calls_of_entryOf hc, nofun⟩
      · exact htail b hb
    | true =>
      rw [if_pos rfl] at hn₁
      obtain ⟨symbol, c', -, -, hc', hbind⟩ := bindFlux_ok hn₁
      rw [hc] at hc'
      cases hc'
      refine ⟨bindFlux_spelled hn₁ hn.1, hn.2.bind hbind, fun b hb => ?_⟩
      rcases List.mem_cons.1 hb with rfl | hb
      · exact ⟨(calls_of_entryOf hc).bind hbind, fun _ => calls_bind hbind⟩
      · exact htail b hb

theorem layAll_separate (h : layAll t n joint o states = .ok (n', blocks)) (hn : n.Separate) :
    n'.Separate := by
  cases states with
  | nil =>
    cases h
    exact hn
  | cons e states =>
    obtain ⟨c, n₁, rest, -, hn₁, hrest, -⟩ := layAll_cons_ok h
    obtain rfl := (layAll_plain hrest).1
    rcases flux_cases hn₁ with rfl | ⟨-, hflux⟩
    · exact hn
    · obtain ⟨_, _, -, -, -, hbind⟩ := bindFlux_ok hflux
      exact hn.bind hbind

end VectorBlock

/-- The names of a plan: they come from symbols, stay apart, and the blocks go by them. -/
theorem Plan.ofModel_named {o : Ontology} {kind : ModelKind} {options : SolverOptions}
    {t : Topology} {m : Model} {plan : Formula.Noted Plan}
    (h : Plan.ofModel o kind options t m = .ok plan) :
    plan.result.names.Spelled ∧ plan.result.names.Apart ∧
      ∀ b ∈ plan.result.states, VectorBlock.Called plan.result.names b := by
  obtain ⟨bound, names, states, formulas, hb, hl, -, hp⟩ := Plan.ofModel_ok h
  have hnone : Names.empty.Plain ∧ Names.empty.Apart := ⟨nofun, nofun⟩
  rw [hp]
  exact VectorBlock.layAll_called hl (Names.bindAll_plain hb hnone)

theorem Plan.ofModel_separate {o : Ontology} {kind : ModelKind} {options : SolverOptions}
    {t : Topology} {m : Model} {plan : Formula.Noted Plan}
    (h : Plan.ofModel o kind options t m = .ok plan) : plan.result.names.Separate := by
  obtain ⟨bound, names, states, formulas, hb, hl, -, hp⟩ := Plan.ofModel_ok h
  rw [hp]
  exact VectorBlock.layAll_separate hl (Names.bindAll_separate hb ⟨nofun, nofun⟩)

end Program

end Kinetics

import Kinetics.Proofs.Lookup.Program

/-!
# Kinetics.Proofs.Lookup.Simulation

A program, its parameter table and its results use the same keys, as its text has it. What the lines
look up are the keys that the statements read, and these are in the table. A law whose formula
spells a look-up of its own can ask for more.
-/

namespace Kinetics

namespace Program

/-- The code of some law's formula spells the look-up of an index. -/
def Plan.Spells (p : Plan) (k : ParameterIndex) : Prop :=
  ∃ law q code, p.codeAt law q = .ok code ∧ (lookUpCode k).toList <:+: code.toList

end Program

namespace Simulation

open Program

variable {o : Ontology} {c : ModelContext} {options : SolverOptions} {s : Simulation} {p : Plan}
  {ss : List Statement} {k : ParameterIndex}

theorem shows_front (p : Plan) (spelled : ParameterIndex → Prop) :
    ∀ st ∈ imports p ++ [.blank, .blank, lookUp, .blank, .blank], Statement.Shows spelled st := by
  have hlookUp : Statement.Shows spelled lookUp := by
    refine shows_silentBlock (by decide) ?_
    simp only [List.forall_mem_cons]
    exact ⟨shows_silent (by decide), shows_silentBlock (by decide)
      (List.forall_mem_singleton.2 (shows_silent (by decide))), shows_silent (by decide),
      List.forall_mem_nil _⟩
  have himports : ∀ st ∈ imports p, Statement.Shows spelled st := by
    unfold imports
    simp only [List.forall_mem_append, List.forall_mem_cons]
    refine ⟨⟨shows_silent (by decide), shows_silent ?_, List.forall_mem_nil _⟩, ?_⟩
    · split <;> decide
    · split
      · exact List.forall_mem_singleton.2 (shows_silent (by decide))
      · exact List.forall_mem_nil _
  simp only [List.forall_mem_append, List.forall_mem_cons]
  exact ⟨himports, shows_blank, shows_blank, hlookUp, shows_blank, shows_blank,
    List.forall_mem_nil _⟩

theorem bare_front (p : Plan) :
    ∀ x ∈ Statement.targetsBy (imports p ++ [.blank, .blank, lookUp, .blank, .blank]), Bare x := by
  unfold imports
  cases p.isJoint <;> cases p.isDynamic <;> decide

section Text

variable (h : statementsOf p = .ok ss) (hn : p.names.Spelled)
  (hcalled : ∀ b ∈ p.states, VectorBlock.Called p.names b)

include h hn hcalled

/-- A program assigns names only. -/
theorem bare_statements : ∀ x ∈ Statement.targetsBy ss, Bare x := by
  obtain ⟨body, rfl, htidy⟩ := exists_tidy_body hcalled h
  intro x hx
  obtain ⟨st, hst, hx⟩ := Statement.mem_targetsBy.1 hx
  have hcut : st ∈ imports p ++ [.blank, .blank, lookUp, .blank, .blank] ∨
      st = .block "def simulate(parameter_table):" body := by
    simpa [or_assoc] using hst
  rcases hcut with hst | rfl
  · exact bare_front p x (Statement.mem_targetsBy.2 ⟨st, hst, hx⟩)
  · rcases List.mem_append.1 hx with hx | hx
    · have hname : x = "simulate" := by simpa using hx
      subst hname
      decide
    · obtain ⟨st, hst, hx⟩ := Statement.mem_targetsBy.1 hx
      exact bare_accounted hn (htidy st hst x hx)

theorem shows_statements : ∀ st ∈ ss, Statement.Shows p.Spells st := by
  obtain ⟨preparation, body, solution, hp, hb, hs, rfl⟩ := statementsOf_ok h
  have hlaw : ∀ law q code, p.codeAt law q = .ok code →
      ∀ k, (lookUpCode k).toList <:+: code.toList → p.Spells k :=
    fun law q code hcode k hk => ⟨law, q, code, hcode, hk⟩
  have hderivative : Statement.Shows p.Spells (.block "def derivative(_t, _y):" body) :=
    shows_silentBlock (by decide) (Plan.shows_derivativeBody hn hcalled hb hlaw)
  have hsimulate : ∀ st ∈ preparation ++ [.blank, .block "def derivative(_t, _y):" body, .blank] ++
      solution ++ p.storeResults, Statement.Shows p.Spells st := by
    simp only [List.forall_mem_append, List.forall_mem_cons]
    exact ⟨⟨⟨Plan.shows_prepare hn hcalled hp, shows_blank, hderivative, shows_blank,
      List.forall_mem_nil _⟩,
      Plan.shows_solve hn hs⟩, Plan.shows_storeResults⟩
  have hfront := shows_front p p.Spells
  simp only [List.forall_mem_append, List.forall_mem_cons] at hfront ⊢
  obtain ⟨himports, hblank, -, hlookUp, -⟩ := hfront
  exact ⟨himports, hblank, hblank, hlookUp, hblank, hblank,
    shows_silentBlock (by decide) hsimulate, List.forall_mem_nil _⟩

/-- The text of a program looks up what its statements read, and otherwise only what the formulas of
laws spell. -/
theorem lookedUp_statements :
    (∀ k, LookedUp (Statement.source ss) k → k ∈ Statement.keysReadBy ss ∨ p.Spells k) ∧
      ∀ k ∈ Statement.keysReadBy ss, LookedUp (Statement.source ss) k := by
  have hbare := bare_statements h hn hcalled
  refine ⟨fun k hk => ?_, fun k hk => ?_⟩
  · obtain ⟨l, hl, hlooks⟩ := lookedUp_source.1 hk
    exact reads_of_shows hbare (shows_statements h hn hcalled) hl hlooks
  · exact lookedUp_source.2 (exists_line_of_reads ss hbare hk 0)

end Text

/-- The text of a program, its table and its results agree on the keys of inputs and states, the
coefficients among them. Only a formula that spells the look-up itself can ask for another key. -/
theorem keys_agree (h : assemble o c options = .ok s) :
    ∃ p, planOf o c options = .ok p ∧
      ((∀ e ∈ p.model.states, e.name ≠ p.model.integralVariable) →
       (∀ main ∈ p.model.states.head?,
        p.model.definitions.contains (main.name ++ fluxSuffix) = false) →
        (∀ k, LookedUp s.source k → k ∈ s.table.indices ∨ p.Spells k) ∧
        (∀ k ∈ s.table.indices, (p.model.definitions.find? k.name = some .leaf ∨
            ∃ b ∈ p.states, b.variableName = k.name) → LookedUp s.source k) ∧
        (∀ k, (k ∈ s.resultKeys.tail ∧ ∀ main ∈ p.model.states.head?,
            k.name ≠ main.name ++ fluxSuffix) ↔
          k ∈ s.table.indices ∧ ∃ b ∈ p.states, b.variableName = k.name) ∧
        ∀ k, k ∈ (Reaction.stoichiometry p.topology.reactions).map Prod.fst ↔
          k ∈ p.topology.indicesOver Reaction.coefficientName .reactionSpecies) := by
  obtain ⟨p, hp, hagree⟩ := reads_agree h
  refine ⟨p, hp, fun hstates hflux => ?_⟩
  obtain ⟨hread, htable, hresults, hcoefficients⟩ := hagree hstates hflux
  obtain ⟨p', hp', -, hstatements, -⟩ := assemble_ok h
  obtain rfl : p' = p := Except.ok.inj (hp'.symm.trans hp)
  obtain ⟨-, -, plan, hplan, rfl⟩ := planOf_ok hp
  obtain ⟨hspelled, -, hcalled⟩ := Plan.ofModel_named hplan
  obtain ⟨hlooked, hlooks⟩ := lookedUp_statements hstatements hspelled hcalled
  exact ⟨fun k hk => (hlooked k hk).imp_left (hread k),
    fun k hk hvariable => hlooks k (htable k hk hvariable), hresults, hcoefficients⟩

/-- The only state is `C`, over `Z`, and the name of its flux is free. -/
def conversionPlanned (p : Plan) : Bool :=
  p.model.states.map (·.name) = ["C"] ∧ p.model.integralVariable = "Z" ∧
    p.model.definitions.contains ("C" ++ fluxSuffix) = false ∧
    p.model.definitions.find? "r" = some .leaf ∧ p.states.map (·.variableName) = ["C"]

/-- Both the rate and the state are looked up in the table, and the state is given back. -/
theorem keys_agree_conversion :
    ∃ s p, assemble conversion conversionContext .standard = .ok s ∧
      planOf conversion conversionContext .standard = .ok p ∧
      (∀ k, LookedUp s.source k → k ∈ s.table.indices ∨ p.Spells k) ∧
      (∀ k ∈ s.table.indices, k.name = "r" ∨ k.name = "C" → LookedUp s.source k) ∧
      ∀ k, (k ∈ s.resultKeys.tail ∧ k.name ≠ "C" ++ fluxSuffix) ↔
        k ∈ s.table.indices ∧ k.name = "C" := by
  obtain ⟨s, hs⟩ := conversion_assembles
  obtain ⟨p, hp, hagree⟩ := keys_agree hs
  have hplanned : (planOf conversion conversionContext .standard).toOption.any
      conversionPlanned = true := by decide +kernel
  simp only [hp, Except.toOption, Option.any_some, conversionPlanned, decide_eq_true_eq]
    at hplanned
  obtain ⟨hstates, hintegral, hfree, hr, hblocks⟩ := hplanned
  obtain ⟨e, hes, he⟩ := List.map_eq_singleton_iff.1 hstates
  obtain ⟨b, hbs, hb⟩ := List.map_eq_singleton_iff.1 hblocks
  simp only [hes, hbs, hintegral, List.mem_singleton, forall_eq, exists_eq_left, he, hb,
    List.head?_cons, Option.mem_some_iff, forall_eq'] at hagree
  obtain ⟨hread, htable, hresult, -⟩ := hagree (by decide) hfree
  refine ⟨s, p, hs, hp, hread, fun k hk hname => htable k hk ?_, fun k => ?_⟩
  · rcases hname with hname | hname
    · exact .inl (hname ▸ hr)
    · exact .inr hname.symm
  · rw [hresult k, eq_comm]

/-- A formula whose text is a look-up. -/
def lookingUp : Ontology :=
  accumulating "<mtext>_value(parameter_table, ('q', None, None, None, None))</mtext>"

/-- The text of a formula is taken as it is, so a look-up that it spells is one of the program, of a
key that no variable has. -/
theorem lookedUp_unlisted :
    ∃ s p, assemble lookingUp horizonContext .standard = .ok s ∧
      planOf lookingUp horizonContext .standard = .ok p ∧
      (∀ e ∈ p.model.states, e.name ≠ p.model.integralVariable) ∧
      (∀ main ∈ p.model.states.head?,
        p.model.definitions.contains (main.name ++ fluxSuffix) = false) ∧
      LookedUp s.source (.scalar "q") ∧ ParameterIndex.scalar "q" ∉ s.table.indices := by
  obtain ⟨s, hs⟩ := exists_ok (show (assemble lookingUp horizonContext .standard).toBool = true
    by decide +kernel)
  obtain ⟨p, hp, -⟩ := assemble_ok hs
  have hplanned : (planOf lookingUp horizonContext .standard).toOption.any (fun p => decide
      ((∀ e ∈ p.model.states, e.name ≠ p.model.integralVariable) ∧
        ∀ main ∈ p.model.states.head?,
          p.model.definitions.contains (main.name ++ fluxSuffix) = false)) = true := by
    decide +kernel
  have hassembled : (assemble lookingUp horizonContext .standard).toOption.any (fun s =>
      (Statement.linesOf 0 s.statements).contains
        "        _d_C = _value(parameter_table, ('q', None, None, None, None))" &&
      !s.table.indices.contains (.scalar "q")) = true := by
    decide +kernel
  simp only [hp, Except.toOption, Option.any_some, decide_eq_true_eq] at hplanned
  simp only [hs, Except.toOption, Option.any_some, Bool.and_eq_true, Bool.not_eq_true',
    List.contains_iff_mem] at hassembled
  obtain ⟨hline, hunlisted⟩ := hassembled
  refine ⟨s, p, hs, hp, hplanned.1, hplanned.2, lookedUp_source.2 ⟨_, hline, ?_⟩, ?_⟩
  · decide +kernel
  · simpa using hunlisted

end Simulation

end Kinetics

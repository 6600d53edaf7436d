import Kinetics.Proofs.Genuine.Model
import Kinetics.Proofs.Model.States
import Kinetics.Proofs.Program.Binding
import Kinetics.Proofs.Program.Formulas
import Kinetics.Proofs.Program.Plan
import Kinetics.Simulation

/-!
# Kinetics.Proofs.Genuine.Program

Writing a program fails with genuine faults only. The text is written from three tables: the
definitions of the model, the names of its variables, and its compiled formulas. Each is filled
before it is read, and nothing that is read is missing from it:

* `Model.Listed`: the model defines its states, what it integrates over and up to where, and every
  variable that it computes.
* `Names.Binds`: a variable that is bound once stays bound, whatever is bound after it, a flux that
  has taken over its name included.
* `Formulas.Compiled`: every law of a computed variable has its formula, and so have the laws of
  states and the law that is integrated jointly.
-/

namespace Kinetics

variable {o : Ontology} {s : Selection} {t : Topology} {m : Model} {e : Fault} {name : String}
  {names : List String}

namespace Model

/-- What the model refers to by name is among its definitions. -/
structure Listed (m : Model) : Prop where
  states : ∀ e ∈ m.states, m.definitions.contains e.name = true
  integralVariable : m.definitions.contains m.integralVariable = true
  upperLimit : m.definitions.contains m.upperLimit = true
  order : ∀ name ∈ m.order, m.definitions.contains name = true

theorem resolve_listed (h : resolve o s t = .ok m) : m.Listed := by
  obtain ⟨_, -, -, hcomplete⟩ := resolve_reflects h
  obtain ⟨acc, _, _, _, hacc, -, -, -, hdeps, horder, -, hintegral, hlimit, -⟩ := resolve_ok h
  obtain ⟨-, -, hvariable, hupper⟩ := accumulationOf_declares hacc
  obtain ⟨hlaw, hp⟩ := (mem_accumulation hacc).2 ⟨rfl, rfl⟩
  refine ⟨fun e he => ?_, ?_, ?_, fun name hn => ?_⟩
  · obtain ⟨⟨law, hs, hv⟩, -⟩ := (mem_states h).1 he
    exact hcomplete.integrated e.law law e.name hs hv
  · rw [hintegral]
    exact hcomplete.accumulation acc.name acc.law _ hlaw hp (.inr (.inl hvariable))
  · rw [hlimit]
    exact hcomplete.accumulation acc.name acc.law _ hlaw hp (.inr (.inr hupper))
  · obtain ⟨d, hd, -⟩ := ((order_sorted hdeps horder).2 name).1 hn
    rw [Dict.contains, hd]
    rfl

end Model

theorem Dict.get_error {κ α : Type} [Ord κ] {d : Dict κ α} {k : κ} {fault f : Fault}
    (h : d.get k fault = .error f) : d.contains k = false := by
  unfold get at h
  split at h
  · cases h
  · rename_i hk
    rw [contains, hk]
    rfl

namespace Program

open Formula

namespace Names

variable {n n' : Names} {symbol other : String} {b : Binding}

/-- The variable has a name. -/
def Binds (n : Names) (name : String) : Prop :=
  ∃ b, n.entryOf name = .ok b

theorem Binds.bind (h : n.bind symbol name b = .ok n') (ho : n.Binds other) : n'.Binds other := by
  by_cases hne : other = name
  · exact ⟨b, hne ▸ bind_self h⟩
  · obtain ⟨b', hb'⟩ := ho
    exact ⟨b', bind_other h hne hb'⟩

theorem Binds.no_error (hn : n.Binds name) : n.entryOf name ≠ .error e := by
  obtain ⟨b, hb⟩ := hn
  rw [hb]
  nofun

theorem Binds.symbolOf (hn : n.Binds name) : ∃ symbol, n.symbolOf name = .ok symbol := by
  obtain ⟨b, hb⟩ := hn
  obtain ⟨symbol, hs, -⟩ := entryOf_ok.1 hb
  exact ⟨symbol, Formulas.get_ok.2 hs⟩

@[grind →] theorem bind_genuine (h : n.bind symbol name b = .error e) : e.Genuine := by
  unfold Names.bind at h
  grind [Fault.Genuine]

@[grind →] theorem layoutShape_genuine {v : Variable} (h : layoutShape name v = .error e) :
    e.Genuine := by
  unfold layoutShape at h
  grind

theorem bindAll_genuine (h : bindAll o n names = .error e) : e.Genuine := by
  induction names generalizing n with
  | nil => cases h
  | cons name names ih =>
    simp only [bindAll, bind_error] at h
    rcases h with h | ⟨v, -, h | ⟨symbol, -, h | ⟨shape, -, h | ⟨n', -, h | ⟨rest, -, h⟩⟩⟩⟩⟩
    · exact Ontology.variableOf_genuine h
    · exact readSymbol_genuine h
    · exact layoutShape_genuine h
    · exact bind_genuine h
    · exact ih h
    · cases h

theorem bindAll_binds {bound : Noted Names} (h : bindAll o n names = .ok bound)
    (hn : name ∈ names) : bound.result.Binds name := by
  obtain ⟨_, _, b, -, -, hb, -⟩ := bindAll_shaped h name (.inl hn)
  exact ⟨b, hb⟩

end Names

namespace VectorBlock

open Names

variable {n n' : Names} {joint : Bool} {offset : Nat} {states : List StateEquation}
  {blocks : List VectorBlock} {eq : StateEquation}

theorem bindFlux_binds (h : bindFlux n eq = .ok n') (hn : n.Binds name) : n'.Binds name := by
  obtain ⟨_, _, -, -, -, hbind⟩ := bindFlux_ok h
  exact hn.bind hbind

theorem bindFlux_genuine (h : bindFlux n eq = .error e) (hn : n.Binds eq.name) : e.Genuine := by
  obtain ⟨symbol, hs⟩ := hn.symbolOf
  obtain ⟨b, hb⟩ := hn
  simp only [bindFlux, hs, hb] at h
  exact bind_genuine h

theorem flux_binds (h : (if joint then bindFlux n eq else .ok n) = .ok n')
    (hn : n.Binds name) : n'.Binds name := by
  rcases flux_cases h with rfl | ⟨-, hflux⟩
  · exact hn
  · exact bindFlux_binds hflux hn

/-- What is laid out is bound before, and stays bound. -/
theorem layAll_genuine (h : layAll t n joint offset states = .error e)
    (hn : ∀ eq ∈ states, n.Binds eq.name) : e.Genuine := by
  induction states generalizing n joint offset with
  | nil => cases h
  | cons eq states ih =>
    obtain ⟨heq, hstates⟩ := List.forall_mem_cons.1 hn
    simp only [layAll] at h
    split at h
    · rename_i hb
      exact absurd hb heq.no_error
    · split at h
      · rename_i hflux
        cases h
        split at hflux
        · exact bindFlux_genuine hflux heq
        · cases hflux
      · rename_i n₁ hflux
        split at h
        · rename_i hrest
          cases h
          exact ih hrest fun eq' heq' => flux_binds hflux (hstates eq' heq')
        · cases h

theorem layAll_binds (h : layAll t n joint offset states = .ok (n', blocks))
    (hn : n.Binds name) : n'.Binds name := by
  induction states generalizing n joint offset blocks with
  | nil =>
    cases h
    exact hn
  | cons eq states ih =>
    obtain ⟨b, n₁, rest, -, hflux, hrest, -⟩ := layAll_cons_ok h
    exact ih hrest (flux_binds hflux hn)

/-- Every block is that of a state. -/
theorem layAll_laws (h : layAll t n joint offset states = .ok (n', blocks)) :
    blocks.map VectorBlock.law = states.map StateEquation.law := by
  induction states generalizing n joint offset blocks with
  | nil =>
    cases h
    rfl
  | cons eq states ih =>
    obtain ⟨b, n₁, rest, -, -, hrest, rfl⟩ := layAll_cons_ok h
    rw [List.map_cons, List.map_cons, ih hrest]
    rfl

end VectorBlock

namespace Formulas

variable {n : Names} {selected : NameSet} {fs : Formulas} {law symbol : String}
  {laws : List String}

theorem unselected_genuine (h : unselected o selected names = .error e) : e.Genuine := by
  induction names with
  | nil => cases h
  | cons name names ih =>
    simp only [unselected] at h
    split at h
    · exact ih h
    · simp only [bind_error] at h
      rcases h with h | ⟨v, -, h | ⟨symbol, -, h | ⟨rest, -, h⟩⟩⟩
      · exact Ontology.variableOf_genuine h
      · exact readSymbol_genuine h
      · exact ih h
      · cases h

theorem ofLaw_genuine {l : Law} {markup : String}
    (h : ofLaw o selected n l name markup = .error e) :
    e.Genuine := by
  simp only [ofLaw, bind_error] at h
  rcases h with h | ⟨tree, -, h | ⟨missing, -, h | ⟨pruned, -, h | ⟨formula, -, h⟩⟩⟩⟩
  · exact parse_genuine h
  · exact unselected_genuine h
  · exact Node.prune_genuine _ h
  · exact Node.compile_genuine h
  · grind [Fault.Genuine]

theorem ofLaws_genuine (h : ofLaws o selected n fs laws = .error e) : e.Genuine := by
  induction laws generalizing fs with
  | nil => cases h
  | cons law laws ih =>
    simp only [ofLaws, bind_error] at h
    rcases h with h | ⟨l, -, h | ⟨formula, -, h | ⟨rest, -, h⟩⟩⟩
    · exact Ontology.lawOf_genuine h
    · exact ofLaw_genuine h
    · exact ih h
    · cases h

theorem withJoint_genuine {joint : Option String} (h : withJoint o selected n fs joint = .error e) :
    e.Genuine := by
  cases joint with
  | none => cases h
  | some law =>
    simp only [withJoint, bind_error] at h
    rcases h with h | ⟨l, -, h | ⟨formula, -, h⟩⟩
    · exact Ontology.lawOf_genuine h
    · exact ofLaw_genuine h
    · cases h

theorem ofLaws_contains {out : Noted Formulas} (h : ofLaws o selected n fs laws = .ok out)
    (hl : law ∈ laws ∨ Dict.contains fs law = true) : Dict.contains out.result law = true := by
  induction laws generalizing fs out with
  | nil =>
    cases h
    exact hl.resolve_left List.not_mem_nil
  | cons first laws ih =>
    simp only [ofLaws, bind_ok, pure_ok] at h
    obtain ⟨l, -, formula, -, rest, hrest, rfl⟩ := h
    have hl' : law ∈ laws ∨ Dict.contains (Dict.insert fs first formula.result) law = true := by
      rw [Dict.contains_insert, Bool.or_eq_true, beq_iff_eq, Std.LawfulEqCmp.compare_eq_iff_eq]
      rcases hl with hl | hl
      · exact (List.mem_cons.1 hl).symm.imp_right .inl
      · exact .inr (.inr hl)
    exact (ih hrest hl' :)

/-- The formula that is integrated jointly is there, and no other one is lost. -/
theorem withJoint_contains {joint : Option String} {out : Noted Formulas}
    (h : withJoint o selected n fs joint = .ok out)
    (hl : (∃ l ∈ joint, law = l ++ fluxSuffix) ∨ Dict.contains fs law = true) :
    Dict.contains out.result law = true := by
  cases joint with
  | none =>
    cases h
    exact hl.resolve_left nofun
  | some l =>
    simp only [withJoint, bind_ok, pure_ok] at h
    obtain ⟨l', -, formula, -, rfl⟩ := h
    rw [Dict.contains_insert, Bool.or_eq_true, beq_iff_eq, Std.LawfulEqCmp.compare_eq_iff_eq]
    rcases hl with ⟨_, ⟨⟩, rfl⟩ | hl
    · exact .inl rfl
    · exact .inr hl

/-- Every formula that the program is written from is compiled. -/
structure Compiled (m : Model) (fs : Formulas) : Prop where
  computed : ∀ name ∈ m.order, ∀ d, m.definitions.find? name = some d → ∀ law ∈ d.laws,
    Dict.contains fs law = true
  states : ∀ e ∈ m.states, Dict.contains fs e.law = true
  joint : ∀ law ∈ m.jointLaw, Dict.contains fs (law ++ fluxSuffix) = true

theorem mem_lawsOf (h : lawsOf m names = .ok laws) :
    law ∈ laws ↔ ∃ name ∈ names, ∃ d, m.definitions.find? name = some d ∧ law ∈ d.laws := by
  induction names generalizing laws with
  | nil =>
    cases h
    simp
  | cons first names ih =>
    simp only [lawsOf, bind_ok, pure_ok, definitionOf, get_ok] at h
    obtain ⟨d, hd, rest, hrest, rfl⟩ := h
    simp only [List.mem_append, ih hrest, List.mem_cons, or_and_right, exists_or, exists_eq_left,
      hd, Option.some.injEq, exists_eq_left']

theorem lawsOf_genuine (hn : ∀ name ∈ names, m.definitions.contains name = true)
    (h : lawsOf m names = .error e) : e.Genuine := by
  induction names with
  | nil => cases h
  | cons name names ih =>
    obtain ⟨hname, hnames⟩ := List.forall_mem_cons.1 hn
    simp only [lawsOf, bind_error] at h
    rcases h with h | ⟨d, -, h | ⟨rest, -, h⟩⟩
    · rw [Dict.get_error h] at hname
      cases hname
    · exact ih hnames h
    · cases h

theorem checkLaws_genuine (hl : ∀ law ∈ laws, Dict.contains fs law = true)
    (h : checkLaws fs name symbol laws = .error e) : e.Genuine := by
  induction laws with
  | nil => cases h
  | cons law laws ih =>
    obtain ⟨hlaw, hlaws⟩ := List.forall_mem_cons.1 hl
    simp only [checkLaws, bind_error] at h
    rcases h with h | ⟨formula, -, h⟩
    · rw [Dict.get_error h] at hlaw
      cases hlaw
    · split at h
      · cases h
        intro a ha
        cases ha
      · exact ih hlaws h

theorem checkOwn_genuine (hc : ∀ name ∈ names, m.definitions.contains name = true)
    (hn : ∀ name ∈ names, n.Binds name)
    (hl : ∀ name ∈ names, ∀ d, m.definitions.find? name = some d → ∀ law ∈ d.laws,
      Dict.contains fs law = true)
    (h : checkOwn m n fs names = .error e) : e.Genuine := by
  induction names with
  | nil => cases h
  | cons name names ih =>
    obtain ⟨hname, hc⟩ := List.forall_mem_cons.1 hc
    obtain ⟨hbound, hn⟩ := List.forall_mem_cons.1 hn
    obtain ⟨hlaws, hl⟩ := List.forall_mem_cons.1 hl
    simp only [checkOwn, bind_error] at h
    rcases h with h | ⟨symbol, -, h | ⟨d, hd, h | ⟨_, -, h⟩⟩⟩
    · obtain ⟨symbol, hs⟩ := hbound.symbolOf
      rw [hs] at h
      cases h
    · rw [Dict.get_error h] at hname
      cases hname
    · exact checkLaws_genuine (hlaws d (get_ok.1 hd)) h
    · exact ih hc hn hl h

/-- Laws that are compiled one after the other, and then the joint one, are all there in the end. -/
theorem compiled_of_steps {fs out : Noted Formulas}
    (hlaws : lawsOf m m.order = .ok laws)
    (hfs : ofLaws o selected n Dict.empty ((OrderedSet.ofList laws : NameSet).addAll
      (m.states.map StateEquation.law)).toList = .ok fs)
    (hjoint : withJoint o selected n fs.result m.jointLaw = .ok out) : Compiled m out.result := by
  have hall : ∀ law, law ∈ laws ∨ law ∈ m.states.map StateEquation.law →
      Dict.contains out.result law = true := by
    intro law hl
    refine withJoint_contains hjoint (.inr (ofLaws_contains hfs (.inl ?_)))
    rwa [OrderedSet.mem_toList_addAll, OrderedSet.mem_toList_ofList]
  exact ⟨fun name hn d hd law hl => hall law (.inl ((mem_lawsOf hlaws).2 ⟨name, hn, d, hd, hl⟩)),
    fun e he => hall e.law (.inr (List.mem_map_of_mem he)),
    fun law hl => withJoint_contains hjoint (.inl ⟨law, hl, rfl⟩)⟩

theorem ofModel_compiled {formulas : Noted Formulas} (h : ofModel o m n = .ok formulas) :
    Compiled m formulas.result := by
  simp only [ofModel, bind_ok, pure_ok] at h
  obtain ⟨laws, hlaws, fs, hfs, joint, hjoint, -, -, rfl⟩ := h
  exact (compiled_of_steps hlaws hfs hjoint :)

theorem ofModel_genuine (hm : m.Listed)
    (hn : ∀ name, m.definitions.contains name = true → n.Binds name)
    (h : ofModel o m n = .error e) : e.Genuine := by
  simp only [ofModel, bind_error] at h
  rcases h with h | ⟨laws, hlaws, h | ⟨fs, hfs, h | ⟨joint, hjoint, h | ⟨_, -, h⟩⟩⟩⟩
  · exact lawsOf_genuine hm.order h
  · exact ofLaws_genuine h
  · exact withJoint_genuine h
  · exact checkOwn_genuine hm.order (fun name hin => hn name (hm.order name hin))
      (compiled_of_steps hlaws hfs hjoint).computed h
  · cases h

end Formulas

theorem collect_error {α β : Type} {f : α → Except Fault (List β)} {as : List α}
    (h : collect f as = .error e) : ∃ a ∈ as, f a = .error e := by
  induction as with
  | nil => cases h
  | cons a as ih =>
    simp only [collect, bind_error] at h
    rcases h with h | ⟨bs, -, h | ⟨rest, -, h⟩⟩
    · exact ⟨a, List.mem_cons_self, h⟩
    · obtain ⟨a', ha', he⟩ := ih h
      exact ⟨a', List.mem_cons_of_mem _ ha', he⟩
    · cases h

namespace Plan

/-- What the text of a program refers to is there: definitions, names and formulas. -/
structure Provided (p : Plan) : Prop where
  listed : p.model.Listed
  named : ∀ name, p.model.definitions.contains name = true → p.names.Binds name
  compiled : Formulas.Compiled p.model p.formulas
  laws : p.states.map VectorBlock.law = p.model.states.map StateEquation.law

theorem ofModel_genuine {kind : ModelKind} {options : SolverOptions} (hm : m.Listed)
    (h : ofModel o kind options t m = .error e) : e.Genuine := by
  simp only [ofModel, bind_error] at h
  rcases h with h | ⟨bound, hb, h | ⟨⟨names, states⟩, hl, h | ⟨formulas, -, h⟩⟩⟩
  · exact Names.bindAll_genuine h
  · exact VectorBlock.layAll_genuine h fun e he =>
      Names.bindAll_binds hb (Dict.contains_iff.1 (hm.states e he))
  · exact Formulas.ofModel_genuine hm (fun name hc => VectorBlock.layAll_binds hl
      (Names.bindAll_binds hb (Dict.contains_iff.1 hc))) h
  · cases h

theorem ofModel_provided {kind : ModelKind} {options : SolverOptions} {plan : Noted Plan}
    (hm : m.Listed) (h : ofModel o kind options t m = .ok plan) : plan.result.Provided := by
  obtain ⟨bound, names, states, formulas, hb, hl, hf, hp⟩ := ofModel_ok h
  rw [hp]
  exact ⟨hm, fun name hc => VectorBlock.layAll_binds hl
    (Names.bindAll_binds hb (Dict.contains_iff.1 hc)), Formulas.ofModel_compiled hf,
    VectorBlock.layAll_laws hl⟩

variable {p : Plan}

theorem nameIn_genuine (hn : p.names.Binds name) (h : p.nameIn name = .error e) : e.Genuine := by
  obtain ⟨b, hb⟩ := hn
  rw [nameIn, hb] at h
  cases h

namespace Provided

variable (hp : p.Provided)
include hp

/-- A variable with a definition has a name. -/
theorem named_of_mem {d : Definition} (hd : (name, d) ∈ p.model.definitions.entries) :
    p.names.Binds name := by
  refine hp.named name ?_
  rw [Dict.contains, Dict.find?_eq_some_iff.2 hd]
  rfl

theorem interpolated_genuine (h : p.interpolated = .error e) : e.Genuine := by
  rw [interpolated] at h
  split at h
  · obtain ⟨⟨name, d⟩, hd, h⟩ := collect_error h
    have hn := hp.named_of_mem hd
    rcases bind_error.1 h with h | ⟨b, -, h⟩
    · simp only [followsTime, bind_error] at h
      rcases h with h | ⟨v, -, h | ⟨b, -, h⟩⟩
      · exact Ontology.variableOf_genuine h
      · exact absurd h hn.no_error
      · cases h
    · split at h
      · rcases bind_error.1 h with h | ⟨_, -, h⟩
        · exact nameIn_genuine hn h
        · cases h
      · cases h
  · cases h

theorem setConstants_genuine (h : p.setConstants = .error e) : e.Genuine := by
  obtain ⟨⟨name, d⟩, hd, h⟩ := collect_error h
  have hn := hp.named_of_mem hd
  dsimp only at h
  split at h
  · rcases bind_error.1 h with h | ⟨_, -, h⟩
    · rw [setConstant] at h
      rcases bind_error.1 h with h | ⟨v, -, h⟩
      · exact Ontology.variableOf_genuine h
      · split at h
        · cases h
          nofun
        · rcases bind_error.1 h with h | ⟨b, -, h⟩
          · exact absurd h hn.no_error
          · cases h
    · cases h
  · cases h

theorem readInputs_genuine (h : p.readInputs = .error e) : e.Genuine := by
  obtain ⟨⟨name, d⟩, hd, h⟩ := collect_error h
  have hn := hp.named_of_mem hd
  dsimp only at h
  split at h
  · rcases bind_error.1 h with h | ⟨b, -, h⟩
    · exact absurd h hn.no_error
    · cases h
  · cases h

theorem upperLimit_genuine (h : p.nameIn p.model.upperLimit = .error e) : e.Genuine :=
  nameIn_genuine (hp.named _ hp.listed.upperLimit) h

theorem interpolate_genuine (h : p.interpolate = .error e) : e.Genuine := by
  simp only [interpolate, bind_error] at h
  rcases h with h | ⟨upper, -, h | ⟨names, -, h⟩⟩
  · exact hp.upperLimit_genuine h
  · exact hp.interpolated_genuine h
  · cases h

theorem prepare_genuine (h : p.prepare = .error e) : e.Genuine := by
  simp only [prepare, bind_error] at h
  rcases h with h | ⟨constants, -, h | ⟨inputs, -, h⟩⟩
  · exact hp.setConstants_genuine h
  · exact hp.readInputs_genuine h
  · split at h
    · rcases bind_error.1 h with h | ⟨interpolation, -, h⟩
      · exact hp.interpolate_genuine h
      · cases h
    · cases h

end Provided

theorem codeAt_genuine {law : String} {q : Point} (hl : Dict.contains p.formulas law = true)
    (h : p.codeAt law q = .error e) : e.Genuine := by
  unfold codeAt at h
  cases hg : Dict.get p.formulas law (Fault.unlisted law) with
  | error f =>
    rw [Dict.get_error hg] at hl
    cases hl
  | ok formula =>
    rw [hg] at h
    cases h

/-- Laws that have formulas are written down at every point. -/
theorem assignments_genuine {target : String} {shape : Shape} {lawAt : Point → Option String}
    (hl : ∀ q, ∀ law ∈ lawAt q, Dict.contains p.formulas law = true)
    (h : p.assignments target shape lawAt = .error e) : e.Genuine := by
  unfold assignments at h
  split at h
  · split at h
    · cases h
    · rename_i law hlaw
      rcases bind_error.1 h with h | ⟨code, -, h⟩
      · exact codeAt_genuine (hl .origin law hlaw) h
      · cases h
  · rcases bind_error.1 h with h | ⟨points, -, h⟩
    · obtain ⟨q, -, h⟩ := collect_error h
      split at h
      · cases h
      · rename_i law hlaw
        rcases bind_error.1 h with h | ⟨code, -, h⟩
        · exact codeAt_genuine (hl q law hlaw) h
        · cases h
    · cases h

/-- The law that computes a variable at a point is one of its definition. -/
theorem mem_laws_of_lawAt {d : Definition} {q : Point} {law : String} (h : lawAt d q = some law) :
    law ∈ d.laws := by
  cases d with
  | derived l =>
    cases h
    exact List.mem_singleton_self _
  | perReaction laws =>
    obtain ⟨r, -, hr⟩ := Option.bind_eq_some_iff.1 h
    exact OrderedSet.mem_toList_ofList.2
      (List.mem_map_of_mem (f := Prod.snd) (Dict.find?_eq_some_iff.1 hr))
  | leaf => cases h
  | constant => cases h
  | independent => cases h
  | state l => cases h

namespace Provided

variable (hp : p.Provided)
include hp

theorem compute_genuine (hn : name ∈ p.model.order) (h : p.compute name = .error e) :
    e.Genuine := by
  have hc := hp.listed.order name hn
  simp only [compute, bind_error] at h
  rcases h with h | ⟨b, -, h | ⟨d, hd, h⟩⟩
  · exact absurd h (hp.named name hc).no_error
  · rw [Dict.get_error h] at hc
    cases hc
  · split at h
    · exact assignments_genuine (fun q law hlaw => hp.compiled.computed name hn d
        (Formulas.get_ok.1 hd) law (mem_laws_of_lawAt hlaw)) h
    · cases h

theorem differentiate_genuine {b : VectorBlock} (hb : b ∈ p.states)
    (h : p.differentiate b = .error e) : e.Genuine := by
  unfold differentiate at h
  split at h
  · rcases bind_error.1 h with h | ⟨flux, -, h⟩
    · refine assignments_genuine (fun q law hlaw => ?_) h
      obtain ⟨joint, hjoint, rfl⟩ := Option.map_eq_some_iff.1 hlaw
      exact hp.compiled.joint joint hjoint
    · cases h
  · refine assignments_genuine (fun q law hlaw => ?_) h
    cases hlaw
    have hlaw : b.law ∈ p.model.states.map StateEquation.law :=
      hp.laws ▸ List.mem_map_of_mem hb
    obtain ⟨eq, heq, hname⟩ := List.mem_map.1 hlaw
    rw [← hname]
    exact hp.compiled.states eq heq

theorem derivativeBody_genuine (h : p.derivativeBody = .error e) : e.Genuine := by
  simp only [derivativeBody, bind_error] at h
  rcases h with h | ⟨independent, -, h | ⟨interpolated, -, h | ⟨computations, -, h |
    ⟨derivatives, -, h⟩⟩⟩⟩
  · exact nameIn_genuine (hp.named _ hp.listed.integralVariable) h
  · exact hp.interpolated_genuine h
  · obtain ⟨name, hn, h⟩ := collect_error h
    exact hp.compute_genuine hn h
  · obtain ⟨b, hb, h⟩ := collect_error h
    exact hp.differentiate_genuine hb h
  · cases h

theorem solve_genuine (h : p.solve = .error e) : e.Genuine := by
  simp only [solve, bind_error] at h
  rcases h with h | ⟨upper, -, h⟩
  · exact hp.upperLimit_genuine h
  · cases h

/-- Writing the text of a program looks up nothing that is not there. -/
theorem statementsOf_genuine (h : Simulation.statementsOf p = .error e) : e.Genuine := by
  simp only [Simulation.statementsOf, bind_error] at h
  rcases h with h | ⟨preparation, -, h | ⟨derivative, -, h | ⟨solution, -, h⟩⟩⟩
  · exact hp.prepare_genuine h
  · cases hb : p.derivativeBody with
    | error f =>
      rw [derivative, hb] at h
      cases h
      exact hp.derivativeBody_genuine hb
    | ok body =>
      rw [derivative, hb] at h
      cases h
  · exact hp.solve_genuine h
  · cases h

end Provided

end Plan

end Program

end Kinetics

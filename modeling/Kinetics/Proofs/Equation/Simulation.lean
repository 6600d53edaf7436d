import Kinetics.Proofs.Equation.Formula
import Kinetics.Proofs.Tables.Formulas
import Kinetics.Proofs.Usage.Simulation

/-!
# Kinetics.Proofs.Equation.Simulation

Whether an assembled program assigns more than one name in a line. A line that computes a variable
or a derivative takes its right side from the value of a law's formula. It is an expression as long
as the formula has no equals sign but the one that it is split at (`Derives.single`); one that is
left over, further right or in another row, is left over in the line (`formulas_assign_iff`).
-/

namespace Kinetics

namespace Program

open Formula Statement Text

namespace Formulas

variable {o : Ontology} {selected : NameSet} {n : Names} {l : Law} {name markup : String}
  {tree : Node} {e : Expression} {out : Noted Expression}

/-- What the formula of a law is compiled from: the value of its tree, with brackets resolved. All
its symbols are bound. -/
structure Derives (o : Ontology) (selected : NameSet) (n : Names) (l : Law) (markup : String)
    (tree : Node) (e : Expression) : Prop where
  parsed : parse markup = .ok tree
  compiled : ∃ missing value, unselected o selected l.optionalInputs.toList = .ok missing ∧
    tree.split.value.prune (fun symbols => symbols.disjoint missing.result) = .ok value ∧
    value.result.compile "" = .ok e
  bound : ∀ symbol ∈ e.freeSymbols.toList, n.bindings.contains symbol = true

theorem derives_of_ofLaw (h : ofLaw o selected n l name markup = .ok out) :
    ∃ tree, Derives o selected n l markup tree out.result := by
  simp only [ofLaw, bind_ok] at h
  obtain ⟨tree, htree, missing, hmissing, value, hvalue, e, he, h⟩ := h
  split at h
  · cases h
  · rename_i hnone
    cases h
    refine ⟨tree, htree, ⟨missing, value, hmissing, hvalue, he⟩, fun symbol hs => ?_⟩
    simpa using List.find?_eq_none.1 hnone symbol hs

theorem Derives.plain (h : Derives o selected n l markup tree e) (ht : tree.PlainTexts) :
    ∀ code, .text code ∈ e.fragments → Code.Plain code.toList ∧ '\n' ∉ code.toList := by
  obtain ⟨-, ⟨missing, value, -, hvalue, he⟩, -⟩ := h
  exact (ht.value.prune hvalue).fragments he

/-- At a point, every symbol of the formula is an access to the array that it is bound to. -/
theorem Derives.accesses (h : Derives o selected n l markup tree e) (hn : n.Spelled) (q : Point) :
    SubstitutesArrays (Binding.substitute n.bindings q) e.fragments := by
  obtain ⟨-, ⟨missing, value, -, -, he⟩, hbound⟩ := h
  intro symbol suffix hs
  have hfree : symbol ∈ e.freeSymbols.toList := by
    rw [Expression.freeSymbols, OrderedSet.mem_toList_ofList]
    exact List.mem_filterMap.2 ⟨_, hs, rfl⟩
  obtain ⟨b, hb⟩ := Option.isSome_iff_exists.1 (hbound symbol hfree)
  refine ⟨Node.compile_fromTexts he _ hs, b.name, b.shape, q, ?_, ?_⟩
  · exact (hn.identifier ⟨symbol, b, hb, rfl⟩).1
  · rw [Binding.substitute, hb]

theorem Derives.hasAssignment_indexed (h : Derives o selected n l markup tree e) (hn : n.Spelled)
    (ht : tree.PlainTexts) (q : Point) :
    hasAssignment (e.indexed q n.bindings) = e.equates :=
  hasAssignment_render (h.accesses hn q) (h.plain ht)

/-- With no equals sign but the one that the formula is split at, its value has none. -/
theorem Derives.single (h : Derives o selected n l markup tree e)
    (hone : tree.equalsIn ≤ tree.split.target.toList.length) : e.equates = false := by
  obtain ⟨-, ⟨missing, value, -, hvalue, he⟩, -⟩ := h
  have hle := tree.equalsIn_value
  have hnone : tree.split.value.equalsIn = 0 := by omega
  exact equates_of_equalsIn (equalsIn_prune hnone hvalue) he

/-- The formulas that a key of the compiled formulas stands for: a law's own one, or, under the name
of a flux, the one that is integrated jointly. -/
def FormulaOf (o : Ontology) (m : Model) (key : String) (l : Law) (markup : String) : Prop :=
  (o.lawOf key = .ok l ∧ markup = l.formula) ∨
    ∃ law ∈ m.jointLaw, key = law ++ fluxSuffix ∧ o.lawOf law = .ok l ∧ markup = jointMarkup l

/-- A key that is no flux's stands for its law's own formula. -/
theorem FormulaOf.own {m : Model} {key : String} {l' : Law} (h : FormulaOf o m key l markup)
    (hl : o.lawOf key = .ok l') (hkey : ∀ law, key ≠ law ++ fluxSuffix) : markup = l'.formula := by
  rcases h with ⟨hl', rfl⟩ | ⟨law, -, hlaw, -⟩
  · rw [hl] at hl'
    cases hl'
    rfl
  · exact absurd hlaw (hkey law)

/-- What is kept under a key is compiled from a formula of a law. -/
theorem formulaOf_find? {s : Selection} {t : Topology} {m : Model} {fs : Noted Formulas}
    {key : String} (hm : Model.resolve o s t = .ok m) (h : ofModel o m n = .ok fs)
    (hkey : fs.result.find? key = some e) :
    ∃ l markup tree, FormulaOf o m key l markup ∧ Derives o m.selected n l markup tree e := by
  obtain ⟨hown, hjoint, hkeys⟩ := find?_ofModel hm h
  by_cases hk : ∃ law ∈ m.jointLaw, key = law ++ fluxSuffix
  · obtain ⟨law, hlaw, rfl⟩ := hk
    obtain ⟨joint, hcompiled, hfind⟩ := hjoint law hlaw
    rw [hkey] at hfind
    cases hfind
    obtain ⟨l, hl, out, hout, rfl⟩ := compiled_ok.1 hcompiled
    obtain ⟨tree, htree⟩ := derives_of_ofLaw hout
    exact ⟨l, _, tree, .inr ⟨law, hlaw, rfl, hl, rfl⟩, htree⟩
  · have hdraws : m.Draws key :=
      (hkeys key (by rw [hkey]; exact Option.some_ne_none e)).resolve_right hk
    obtain ⟨own, hcompiled, hfind⟩ := hown key hdraws
    have hfound := hfind.2 fun law hlaw hname => absurd ⟨law, hlaw, hname⟩ hk
    rw [hkey] at hfound
    cases hfound
    obtain ⟨l, hl, out, hout, rfl⟩ := compiled_ok.1 hcompiled
    obtain ⟨tree, htree⟩ := derives_of_ofLaw hout
    exact ⟨l, _, tree, .inl ⟨hl, rfl⟩, htree⟩

end Formulas

namespace Plan

variable {p : Plan} {ss : List Statement} {x : String}

/-- A statement that assigns a law's code at a point, or makes room for what laws assign. -/
def AssignsLaw (p : Plan) (st : Statement) : Prop :=
  (∃ place law q code, p.codeAt law q = .ok code ∧ st = .assign place code) ∨
    ∃ target value, st = define target value ∧
      (value = "0.0" ∨ (∃ s, value = zerosCode p.topology s) ∨ ∃ b ∈ p.states, value = b.fluxName)

theorem assignsLaw_assignments {s : Shape} {law : Point → Option String}
    (h : p.assignments x s law = .ok ss) : ∀ st ∈ ss, p.AssignsLaw st := by
  unfold assignments at h
  split at h
  · split at h
    · cases h
      exact List.forall_mem_singleton.2 (.inr ⟨x, _, rfl, .inl rfl⟩)
    · simp only [bind_ok, pure_ok] at h
      obtain ⟨code, hcode, rfl⟩ := h
      exact List.forall_mem_singleton.2 (.inl ⟨_, _, _, code, hcode, rfl⟩)
  · simp only [bind_ok, pure_ok] at h
    obtain ⟨points, hpoints, rfl⟩ := h
    refine List.forall_mem_cons.2 ⟨.inr ⟨x, _, rfl, .inr (.inl ⟨s, rfl⟩)⟩, fun st hst => ?_⟩
    obtain ⟨q, -, bs, hbs, hst⟩ := (mem_collect hpoints).1 hst
    split at hbs
    · cases hbs
      cases hst
    · simp only [bind_ok, pure_ok] at hbs
      obtain ⟨code, hcode, rfl⟩ := hbs
      rw [List.mem_singleton.1 hst]
      exact .inl ⟨_, _, q, code, hcode, rfl⟩

theorem assignsLaw_computations (h : p.computations = .ok ss) : ∀ st ∈ ss, p.AssignsLaw st := by
  intro st hst
  obtain ⟨name, -, bs, hbs, hst⟩ := (mem_collect h).1 hst
  simp only [compute, bind_ok] at hbs
  obtain ⟨b, -, d, -, hbs⟩ := hbs
  split at hbs
  · exact assignsLaw_assignments hbs st hst
  · cases hbs
    cases hst

theorem assignsLaw_derivatives (h : collect p.differentiate p.states = .ok ss) :
    ∀ st ∈ ss, p.AssignsLaw st := by
  intro st hst
  obtain ⟨b, hb, bs, hbs, hst⟩ := (mem_collect h).1 hst
  unfold differentiate at hbs
  split at hbs
  · simp only [bind_ok, pure_ok] at hbs
    obtain ⟨flux, hflux, rfl⟩ := hbs
    rcases List.mem_cons.1 hst with rfl | hst
    · exact .inr ⟨_, _, rfl, .inr (.inr ⟨b, hb, rfl⟩)⟩
    · exact assignsLaw_assignments hflux st hst
  · exact assignsLaw_assignments hbs st hst

/-- What is around the statements of a derivative that take their code from laws: the states and
the operating inputs at the time, and the derivatives put together. -/
def aroundLaws (p : Plan) (independent : String) (interpolated : List String)
    (assigned : List Statement) : List Statement :=
  let parts := joinWith ", " (p.states.map VectorBlock.derivativeCode)
  define independent "_t" ::
    interpolated.map (fun name => define name s!"float({interpolatorName name}(_t))") ++
    p.states.flatMap VectorBlock.views ++ assigned ++ [.line s!"return np.concatenate([{parts}])"]

theorem derivativeBody_cut (h : p.derivativeBody = .ok ss) :
    ∃ independent interpolated assigned,
      p.nameIn p.model.integralVariable = .ok independent ∧ p.interpolated = .ok interpolated ∧
      (∀ st ∈ assigned, p.AssignsLaw st) ∧
      ss = p.aroundLaws independent interpolated assigned := by
  simp only [derivativeBody, bind_ok, pure_ok] at h
  obtain ⟨independent, hi, interpolated, hn, computations, hc, derivatives, hd, rfl⟩ := h
  refine ⟨independent, interpolated, computations ++ derivatives, hi, hn, fun st hst => ?_, ?_⟩
  · exact (List.mem_append.1 hst).elim (assignsLaw_computations hc st)
      (assignsLaw_derivatives hd st)
  · simp only [aroundLaws, List.append_assoc]

end Plan

end Program

namespace Simulation

open Program Statement Formula Text

variable {o : Ontology} {c : ModelContext} {options : SolverOptions} {s : Simulation}

/-- In an assembled program the right side of a line that computes a variable or a derivative is the
code of a law's formula, or makes room for one. The code is an assignment itself exactly if an
equals sign is left over outside all brackets in the value of the formula. So it is none if the
formula has only the equals sign that it is split at. -/
theorem formulas_assign_iff (h : assemble o c options = .ok s) :
    ∃ p preparation independent interpolated assigned solution,
      planOf o c options = .ok p ∧ p.interpolated = .ok interpolated ∧
      p.prepare = .ok preparation ∧ p.solve = .ok solution ∧
      s.statements = imports p ++
        [.blank, .blank, lookUp, .blank, .blank,
          .block "def simulate(parameter_table):"
            (preparation ++ [.blank, .block "def derivative(_t, _y):"
              (p.aroundLaws independent interpolated assigned), .blank] ++ solution ++
                p.storeResults)] ∧
      (∀ st ∈ assigned, p.AssignsLaw st) ∧
      ∀ key q code, p.codeAt key q = .ok code → ∃ l markup tree e,
        Formulas.FormulaOf o p.model key l markup ∧
        Formulas.Derives o p.model.selected p.names l markup tree e ∧
        code = e.indexed q p.names.bindings ∧
        (tree.PlainTexts → hasAssignment code = e.equates) ∧
        (tree.PlainTexts → tree.equalsIn ≤ tree.split.target.toList.length →
          hasAssignment code = false) := by
  obtain ⟨p, hp, -, hstatements, -⟩ := assemble_ok h
  obtain ⟨-, hm, plan, hplan, rfl⟩ := planOf_ok hp
  obtain ⟨hspelled, -, -⟩ := Plan.ofModel_named hplan
  obtain ⟨preparation, body, solution, hpreparation, hbody, hsolution, hs⟩ :=
    statementsOf_ok hstatements
  obtain ⟨independent, interpolated, assigned, -, hinterpolated, hassigned, rfl⟩ :=
    Plan.derivativeBody_cut hbody
  refine ⟨plan.result, preparation, independent, interpolated, assigned, solution, hp,
    hinterpolated, hpreparation, hsolution, hs, hassigned, fun key q code hcode => ?_⟩
  obtain ⟨e, he, rfl⟩ := map_ok.1 hcode
  obtain ⟨bound, names, states, formulas, -, -, hformulas, hresult⟩ := Plan.ofModel_ok hplan
  rw [hresult] at he hspelled ⊢
  obtain ⟨l, markup, tree, hformula, hderives⟩ :=
    Formulas.formulaOf_find? hm hformulas (Formulas.get_ok.1 he)
  have hcode (ht : tree.PlainTexts) := hderives.hasAssignment_indexed hspelled ht q
  refine ⟨l, markup, tree, e, hformula, hderives, rfl, hcode, fun ht hone => ?_⟩
  rw [hcode ht, hderives.single hone]

section Accumulation

/-- The law that the derivative of `C` is the value of a formula. -/
def accumulationBy (formula : String) : Law :=
  ⟨formula, some "S", OrderedSet.ofList ["k"], Dict.empty, none, none, some "t", some "T", some "C",
    none⟩

/-- The model with a horizon that is read, with this law. -/
def accumulating (formula : String) : Ontology :=
  { horizon [] with laws := Dict.ofList [("Acc", accumulationBy formula)] }

/-- An equation for `C` in a row of its own, with something after it. -/
def equationBefore (rest : String) : String :=
  "<math><mrow><mi>C</mi><mo>=</mo><mi>k</mi></mrow>" ++ rest ++ "</math>"

/-- The equation alone is split. With a space after its row it is not, and the line of the
derivative assigns the state, too. -/
theorem formulas_assign_iff_space :
    (∃ (s : Simulation) (p : Plan),
      assemble (accumulating (equationBefore "")) horizonContext .standard = .ok s ∧
      planOf (accumulating (equationBefore "")) horizonContext .standard = .ok p ∧
      p.codeAt "Acc" .origin = .ok "k" ∧ hasAssignment "k" = false) ∧
    ∃ (s : Simulation) (p : Plan) (e : Expression),
      assemble (accumulating (equationBefore "<mspace/>")) horizonContext .standard = .ok s ∧
      planOf (accumulating (equationBefore "<mspace/>")) horizonContext .standard = .ok p ∧
      p.codeAt "Acc" .origin = .ok "C = k" ∧ e.indexed .origin p.names.bindings = "C = k" ∧
      e.equates = true := by
  have hcodeAt {formula code : String} {p : Plan}
      (hp : planOf (accumulating formula) horizonContext .standard = .ok p)
      (h : (planOf (accumulating formula) horizonContext .standard).toOption.any
        (fun p => decide ((p.codeAt "Acc" .origin).toOption = some code)) = true) :
      p.codeAt "Acc" .origin = .ok code := by
    rw [hp] at h
    obtain ⟨code', hcode, rfl⟩ := exists_ok_of_map (f := id)
      (by simpa using of_decide_eq_true h : (p.codeAt "Acc" .origin).toOption.map id = some code)
    exact hcode
  have htree {rest markup : String} {p : Plan} {l : Law} {tree : Node} {e : Expression}
      {Q : Node → Prop} [DecidablePred Q]
      (hw : Formulas.FormulaOf (accumulating (equationBefore rest)) p.model "Acc" l markup)
      (hd : Formulas.Derives (accumulating (equationBefore rest)) p.model.selected p.names l markup
        tree e)
      (h : (parse (equationBefore rest)).toOption.any (fun n => decide (Q n)) = true) : Q tree := by
    have hkey (law : String) : "Acc" ≠ law ++ fluxSuffix := by
      intro h
      have hlast := congrArg (fun key => key.toList.getLast?) h
      simp [fluxSuffix] at hlast
    have hlaw : (accumulating (equationBefore rest)).lawOf "Acc" =
        .ok (accumulationBy (equationBefore rest)) := by
      simp [Ontology.lawOf, accumulating, Dict.ofList, Dict.find?_insert_self]
    have hmarkup : markup = equationBefore rest := hw.own hlaw hkey
    rw [← hmarkup, hd.parsed] at h
    exact of_decide_eq_true h
  obtain ⟨s, hs⟩ := exists_ok (show (assemble (accumulating (equationBefore "")) horizonContext
    .standard).toBool = true by decide +kernel)
  obtain ⟨s', hs'⟩ := exists_ok (show (assemble (accumulating (equationBefore "<mspace/>"))
    horizonContext .standard).toBool = true by decide +kernel)
  refine ⟨?_, ?_⟩
  · obtain ⟨p, -, -, -, -, -, hp, -, -, -, -, -, hall⟩ := formulas_assign_iff hs
    have hcode : p.codeAt "Acc" .origin = .ok "k" := hcodeAt hp (by decide +kernel)
    obtain ⟨l, markup, tree, e, hw, hd, -, -, hnone⟩ := hall "Acc" .origin "k" hcode
    have hsingle : tree.PlainTexts ∧ tree.equalsIn ≤ tree.split.target.toList.length :=
      htree (Q := fun n => n.PlainTexts ∧ n.equalsIn ≤ n.split.target.toList.length) hw hd
        (by decide +kernel)
    exact ⟨s, p, hs, hp, hcode, hnone hsingle.1 hsingle.2⟩
  · obtain ⟨p, -, -, -, -, -, hp, -, -, -, -, -, hall⟩ := formulas_assign_iff hs'
    have hcode : p.codeAt "Acc" .origin = .ok "C = k" := hcodeAt hp (by decide +kernel)
    obtain ⟨l, markup, tree, e, hw, hd, hindexed, hequates, -⟩ := hall "Acc" .origin "C = k" hcode
    have hplain : tree.PlainTexts := htree hw hd (by decide +kernel)
    refine ⟨s', p, e, hs', hp, hcode, hindexed.symm, ?_⟩
    rw [← hequates hplain]
    decide +kernel

end Accumulation

end Simulation

end Kinetics

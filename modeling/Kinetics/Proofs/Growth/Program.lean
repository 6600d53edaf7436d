import Kinetics.Program.Derivative
import Kinetics.Program.Solver
import Kinetics.Parameter.Table
import Kinetics.Proofs.Growth.Basic
import Kinetics.Proofs.Program.Plan

/-!
# Kinetics.Proofs.Growth.Program

The table of a model, its names, its formulas and its statements stay the same when the ontology
grows: all they take from it is the variables and the laws that the model names, and the units of
those variables.
-/

namespace Kinetics

namespace Ontology.Extends

variable {s : Selection} {o o' : Ontology} {t : Topology} {m : Model} (h : o.Extends s o')
include h

section Table

open ParameterTable

variable {es out : TableEntries} {defs : Dict String Definition}

theorem addVariables_ok {ds : List (String × Definition)} (he : addVariables o t es ds = .ok out) :
    addVariables o' t es ds = .ok out := by
  induction ds generalizing es with
  | nil => exact he
  | cons e ds ih =>
    obtain ⟨name, d⟩ := e
    simp only [addVariables] at he ⊢
    split at he
    · rename_i hd
      rw [if_pos hd]
      split at he
      · cases he
      · rename_i v hv
        split at he
        · cases he
        · rename_i shape hs
          simp only [h.variableOf hv, hs]
          exact ih he
    · rename_i hd
      rw [if_neg hd]
      exact ih he

theorem declared_ok (he : declared o t m = .ok es) : declared o' t m = .ok es := by
  simp only [declared] at he ⊢
  split at he
  · cases he
  · rename_i out hout
    rw [h.addVariables_ok hout]
    exact he

theorem standardEntry_ok {i : ParameterIndex} {value value' : Option (ParameterValue Float)}
    (he : standardEntry o defs i value = .ok value') :
    standardEntry o' defs i value = .ok value' := by
  simp only [standardEntry] at he ⊢
  split at he
  · rename_i hi
    rwa [if_pos hi]
  · rename_i hi
    rw [if_neg hi]
    split at he
    · cases he
    · rename_i v hv
      rw [h.variableOf hv]
      simp only [h.unitOf_eq hv]
      exact he

theorem standardEntries_ok {es rs : List (ParameterIndex × Option (ParameterValue Float))}
    (he : standardEntries o defs es = .ok rs) : standardEntries o' defs es = .ok rs := by
  induction es generalizing rs with
  | nil => exact he
  | cons e es ih =>
    obtain ⟨i, value⟩ := e
    simp only [standardEntries] at he ⊢
    split at he
    · cases he
    · rename_i value' hv
      split at he
      · cases he
      · rename_i rest hrest
        rw [h.standardEntry_ok hv, ih hrest]
        exact he

theorem build_ok {known : List KnownValue} {table : ParameterTable}
    (hb : build o known t m = .ok table) : build o' known t m = .ok table := by
  simp only [build] at hb ⊢
  split at hb
  · cases hb
  · rename_i es hes
    split at hb
    · cases hb
    · rename_i rs hrs
      simp only [h.declared_ok hes, h.standardEntries_ok hrs]
      exact hb

theorem ignoredValues_eq {known : List KnownValue} {table : ParameterTable}
    (hb : build o known t m = .ok table) :
    ignoredValues o' known t m = ignoredValues o known t m := by
  simp only [build] at hb
  split at hb
  · cases hb
  · rename_i es hes
    rw [ignoredValues, ignoredValues, hes, h.declared_ok hes]

end Table

section Formulas

open Formula Program

variable {n : Names} {selected : NameSet}

theorem bindAll_ok {names : List String} {bound : Noted Names}
    (hb : Names.bindAll o n names = .ok bound) : Names.bindAll o' n names = .ok bound := by
  induction names generalizing n bound with
  | nil => exact hb
  | cons name names ih =>
    simp only [Names.bindAll, bind_ok] at hb ⊢
    obtain ⟨v, hv, symbol, hs, shape, hshape, n', hn, rest, hrest, hb⟩ := hb
    exact ⟨v, h.variableOf hv, symbol, hs, shape, hshape, n', hn, rest, ih hrest, hb⟩

theorem unselected_ok {names : List String} {missing : Noted NameSet}
    (hm : Formulas.unselected o selected names = .ok missing) :
    Formulas.unselected o' selected names = .ok missing := by
  induction names generalizing missing with
  | nil => exact hm
  | cons name names ih =>
    simp only [Formulas.unselected] at hm ⊢
    split at hm
    · rename_i hc
      rw [if_pos hc]
      exact ih hm
    · rename_i hc
      rw [if_neg hc]
      simp only [bind_ok] at hm ⊢
      obtain ⟨v, hv, symbol, hs, rest, hrest, hm⟩ := hm
      exact ⟨v, h.variableOf hv, symbol, hs, rest, ih hrest, hm⟩

theorem ofLaw_ok {law : Law} {name markup : String} {e : Noted Expression}
    (he : Formulas.ofLaw o selected n law name markup = .ok e) :
    Formulas.ofLaw o' selected n law name markup = .ok e := by
  simp only [Formulas.ofLaw, bind_ok] at he ⊢
  obtain ⟨tree, ht, missing, hm, he⟩ := he
  exact ⟨tree, ht, missing, h.unselected_ok hm, he⟩

theorem ofLaws_ok {names : List String} {fs : Formulas} {out : Noted Formulas}
    (ho : Formulas.ofLaws o selected n fs names = .ok out) :
    Formulas.ofLaws o' selected n fs names = .ok out := by
  induction names generalizing fs out with
  | nil => exact ho
  | cons name names ih =>
    simp only [Formulas.ofLaws, bind_ok] at ho ⊢
    obtain ⟨law, hl, e, he, rest, hrest, ho⟩ := ho
    exact ⟨law, h.lawOf hl, e, h.ofLaw_ok he, rest, ih hrest, ho⟩

theorem withJoint_ok {joint : Option String} {fs : Formulas} {out : Noted Formulas}
    (ho : Formulas.withJoint o selected n fs joint = .ok out) :
    Formulas.withJoint o' selected n fs joint = .ok out := by
  cases joint with
  | none => exact ho
  | some name =>
    simp only [Formulas.withJoint, bind_ok] at ho ⊢
    obtain ⟨law, hl, e, he, ho⟩ := ho
    exact ⟨law, h.lawOf hl, e, h.ofLaw_ok he, ho⟩

theorem formulas_ok {out : Noted Formulas} (ho : Formulas.ofModel o m n = .ok out) :
    Formulas.ofModel o' m n = .ok out := by
  simp only [Formulas.ofModel, bind_ok] at ho ⊢
  obtain ⟨laws, hl, fs, hfs, joint, hj, ho⟩ := ho
  exact ⟨laws, hl, fs, h.ofLaws_ok hfs, joint, h.withJoint_ok hj, ho⟩

end Formulas

end Ontology.Extends

namespace Program

/-- The same plan with another ontology to look things up in. -/
def Plan.over (p : Plan) (o : Ontology) : Plan :=
  { p with ontology := o }

theorem collect_ok_of_ok {α β : Type} {f g : α → Except Fault (List β)} {as : List α} {rs : List β}
    (hfg : ∀ a ∈ as, ∀ bs, f a = .ok bs → g a = .ok bs) (h : collect f as = .ok rs) :
    collect g as = .ok rs := by
  induction as generalizing rs with
  | nil => exact h
  | cons a as ih =>
    obtain ⟨hhead, htail⟩ := List.forall_mem_cons.1 hfg
    obtain ⟨first, rest, hf, hr, rfl⟩ := collect_cons_ok.1 h
    exact collect_cons_ok.2 ⟨first, rest, hhead first hf, ih htail hr, rfl⟩

end Program

namespace Ontology.Extends

open Program

section Planning

variable {s : Selection} {o o' : Ontology} {t : Topology} {m : Model} {kind : ModelKind}
  {options : SolverOptions} (h : o.Extends s o')
include h

theorem plan_ok {plan : Formula.Noted Plan} (hp : Plan.ofModel o kind options t m = .ok plan) :
    Plan.ofModel o' kind options t m = .ok ⟨plan.result.over o', plan.skipped⟩ := by
  simp only [Plan.ofModel, bind_ok, pure_ok] at hp ⊢
  obtain ⟨bound, hb, ⟨names, states⟩, hl, formulas, hf, rfl⟩ := hp
  exact ⟨bound, h.bindAll_ok hb, (names, states), hl, formulas, h.formulas_ok hf, rfl⟩

end Planning

section Statements

variable {s : Selection} {o' : Ontology} {p : Plan} {ss : List Statement}
  (h : p.ontology.Extends s o')
include h

theorem followsTime_ok {name : String} {d : Definition} {b : Bool}
    (hb : p.followsTime name d = .ok b) : (p.over o').followsTime name d = .ok b := by
  simp only [Plan.followsTime, bind_ok] at hb ⊢
  obtain ⟨v, hv, hb⟩ := hb
  exact ⟨v, h.variableOf hv, hb⟩

theorem interpolated_ok {names : List String} (hn : p.interpolated = .ok names) :
    (p.over o').interpolated = .ok names := by
  rw [Plan.interpolated] at hn ⊢
  split at hn
  · rename_i hd
    rw [if_pos (show (p.over o').isDynamic = true from hd)]
    refine collect_ok_of_ok (fun e _ bs hb => ?_) hn
    obtain ⟨b, hf, hb⟩ := bind_ok.1 hb
    exact bind_ok.2 ⟨b, h.followsTime_ok hf, hb⟩
  · rename_i hd
    rwa [if_neg (show ¬(p.over o').isDynamic = true from hd)]

theorem setConstant_ok {name : String} {c : Statement} (hc : p.setConstant name = .ok c) :
    (p.over o').setConstant name = .ok c := by
  simp only [Plan.setConstant, bind_ok] at hc ⊢
  obtain ⟨v, hv, hc⟩ := hc
  refine ⟨v, h.variableOf hv, ?_⟩
  simp only [Plan.over, h.unitOf_eq hv]
  exact hc

theorem setConstants_ok (hs : p.setConstants = .ok ss) : (p.over o').setConstants = .ok ss := by
  refine collect_ok_of_ok (fun e _ bs hb => ?_) hs
  dsimp only at hb ⊢
  split at hb
  · rename_i hd
    rw [if_pos hd]
    obtain ⟨c, hc, hb⟩ := bind_ok.1 hb
    exact bind_ok.2 ⟨c, h.setConstant_ok hc, hb⟩
  · rename_i hd
    rwa [if_neg hd]

theorem interpolate_ok (hs : p.interpolate = .ok ss) : (p.over o').interpolate = .ok ss := by
  simp only [Plan.interpolate, bind_ok] at hs ⊢
  obtain ⟨upper, hu, names, hn, hs⟩ := hs
  exact ⟨upper, hu, names, h.interpolated_ok hn, hs⟩

theorem prepare_ok (hs : p.prepare = .ok ss) : (p.over o').prepare = .ok ss := by
  simp only [Plan.prepare, bind_ok] at hs ⊢
  obtain ⟨constants, hc, inputs, hi, hs⟩ := hs
  refine ⟨constants, h.setConstants_ok hc, inputs, hi, ?_⟩
  split at hs
  · rename_i hd
    rw [if_pos (show (p.over o').isDynamic = true from hd)]
    obtain ⟨interpolation, hp, hs⟩ := bind_ok.1 hs
    exact bind_ok.2 ⟨interpolation, h.interpolate_ok hp, hs⟩
  · rename_i hd
    rwa [if_neg (show ¬(p.over o').isDynamic = true from hd)]

theorem derivativeBody_ok (hs : p.derivativeBody = .ok ss) :
    (p.over o').derivativeBody = .ok ss := by
  simp only [Plan.derivativeBody, bind_ok] at hs ⊢
  obtain ⟨independent, hi, names, hn, hs⟩ := hs
  exact ⟨independent, hi, names, h.interpolated_ok hn, hs⟩

end Statements

end Ontology.Extends

end Kinetics

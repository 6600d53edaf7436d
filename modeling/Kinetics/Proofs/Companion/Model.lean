import Kinetics.Proofs.Dict
import Kinetics.Proofs.Fallible
import Kinetics.Proofs.Model.Claimants
import Kinetics.Proofs.Model.Worklist

/-!
# Kinetics.Proofs.Companion.Model

The laws of a phase that the plant does not have. A transport law can name a law of the gas or the
solid phase as its companion. Detaching the companions of one phase from every law leaves all other
fields of a law as they are, and nothing but the step that switches on the law of this phase looks
at the field. Without the phase, this step switches nothing on, so that the model is the same.
-/

namespace Kinetics

namespace Law

variable {k : Phase} {l : Law}

/-- The law without its companion of a phase. -/
def detach (k : Phase) (l : Law) : Law :=
  match k with
  | .gas => { l with gasLaw := none }
  | .solid => { l with solidLaw := none }

@[simp] theorem detach_formula : (l.detach k).formula = l.formula := by
  cases k <;> rfl

@[simp] theorem detach_phenomenon : (l.detach k).phenomenon = l.phenomenon := by
  cases k <;> rfl

@[simp] theorem detach_inputs : (l.detach k).inputs = l.inputs := by
  cases k <;> rfl

@[simp] theorem detach_optionalInputs : (l.detach k).optionalInputs = l.optionalInputs := by
  cases k <;> rfl

@[simp] theorem detach_integralVariable : (l.detach k).integralVariable = l.integralVariable := by
  cases k <;> rfl

@[simp] theorem detach_upperLimit : (l.detach k).upperLimit = l.upperLimit := by
  cases k <;> rfl

@[simp] theorem detach_differentialVariable :
    (l.detach k).differentialVariable = l.differentialVariable := by
  cases k <;> rfl

@[simp] theorem detach_jointFormula : (l.detach k).jointFormula = l.jointFormula := by
  cases k <;> rfl

@[simp] theorem isDefinitional_detach : (l.detach k).isDefinitional = l.isDefinitional := by
  rw [isDefinitional, isDefinitional, detach_phenomenon]

theorem associated_detach (k j : Phase) (l : Law) :
    (l.detach k).associated j = if j = k then none else l.associated j := by
  cases k <;> cases j <;> rfl

end Law

namespace Ontology

/-- The ontology in which no law names a companion of a phase. -/
def detach (k : Phase) (o : Ontology) : Ontology :=
  { o with laws := o.laws.mapValues fun _ l => l.detach k }

variable {o : Ontology} {k : Phase} {name : String}

@[simp] theorem variableOf_detach : (o.detach k).variableOf name = o.variableOf name := rfl

@[simp] theorem unitOf_detach : (o.detach k).unitOf = o.unitOf := rfl

@[simp] theorem lawOf_detach :
    (o.detach k).lawOf name = (o.lawOf name).map (Law.detach k) := by
  rw [lawOf, lawOf, detach, Dict.find?_mapValues]
  cases o.laws.find? name with
  | none => rfl
  | some l => rfl

end Ontology

namespace Activation

variable {o : Ontology} {s : Selection} {t : Topology} {a : Activation} {k : Phase}
  {names selected : List String} {xs : List (String × Law)}

/-- A law under its name, without its companion of a phase. -/
def detached (k : Phase) (x : String × Law) : String × Law :=
  (x.1, x.2.detach k)

@[simp] theorem lawsOf_detach :
    lawsOf (o.detach k) selected = (lawsOf o selected).map (detached k) := by
  simp only [lawsOf, Ontology.detach, Dict.mapValues, List.filter_map]
  exact congrArg _ (List.filter_congr fun e _ => congrArg (Option.any _) Law.detach_phenomenon)

@[simp] theorem unmatched_detach : unmatched (o.detach k) selected = unmatched o selected := by
  simp [unmatched, Ontology.detach, Dict.values, Dict.mapValues, List.any_map, Function.comp_def]

@[simp] theorem target_detach {law : String} : target (o.detach k) law = target o law := rfl

@[simp] theorem inputs_detach {l : Law} : a.inputs s (l.detach k) = a.inputs s l := by
  simp [inputs]

@[simp] theorem activate_detach {name : String} {law : Law} :
    a.activate (o.detach k) name (law.detach k) = a.activate o name law := by
  simp [activate]

theorem activateAll_detach :
    a.activateAll (o.detach k) (xs.map (detached k)) = a.activateAll o xs := by
  induction xs generalizing a with
  | nil => rfl
  | cons x xs ih => simp only [List.map_cons, detached, activateAll, activate_detach, ih]

theorem activateFlow_detach {joint : Option String} :
    a.activateFlow (o.detach k) joint (xs.map (detached k)) = a.activateFlow o joint xs := by
  induction xs generalizing a joint with
  | nil => rfl
  | cons x xs ih =>
    simp only [List.map_cons, detached, activateFlow, activate_detach, Law.detach_jointFormula, ih]

theorem activateReaction_detach {position : Nat} :
    activateReaction (o.detach k) position a (xs.map (detached k)) =
      activateReaction o position a xs := by
  induction xs generalizing a with
  | nil => rfl
  | cons x xs ih => simp only [List.map_cons, detached, activateReaction, activate_detach, ih]

theorem activateReactions_detach {rs : List (Reaction × Nat)} :
    a.activateReactions (o.detach k) s rs = a.activateReactions o s rs := by
  induction rs generalizing a with
  | nil => rfl
  | cons r rs ih =>
    simp only [activateReactions, lawsOf_detach, activateReaction_detach, ih]

theorem associated_detach_of_ne {j : Phase} (hj : j ≠ k) :
    associated (xs.map (detached k)) j = associated xs j := by
  simp only [associated, List.filterMap_map, Function.comp_def, detached, Law.associated_detach,
    if_neg hj]

theorem associated_detach_self : associated (xs.map (detached k)) k = .ok none := by
  have hnone : (xs.map (detached k)).filterMap (fun e => e.2.associated k) = [] := by
    simp [List.filterMap_eq_nil_iff, detached, Law.associated_detach]
  rw [associated, hnone]
  rfl

/-- The step of another phase is the same. -/
theorem activatePhase_detach_of_ne {j : Phase} (hj : j ≠ k) :
    a.activatePhase (o.detach k) t (xs.map (detached k)) j = a.activatePhase o t xs j := by
  simp only [activatePhase, associated_detach_of_ne hj, Ontology.lawOf_detach]
  cases associated xs j with
  | error e => rfl
  | ok companion =>
    cases companion with
    | none => rfl
    | some name =>
      dsimp only
      cases o.lawOf name with
      | error e => rfl
      | ok law => simp only [Except.map, activate_detach, Law.detach_differentialVariable]

theorem activatePhase_detach_self :
    a.activatePhase (o.detach k) t (xs.map (detached k)) k = .ok (a, []) := by
  rw [activatePhase, associated_detach_self]

/-- Without the phase, its step does nothing unless two companions are at odds. -/
theorem activatePhase_absent (hphase : t.hasPhase k = false) (hlone : LoneCompanion o s k) :
    a.activatePhase o t (lawsOf o s.transport) k = .ok (a, []) := by
  cases hc : associated (lawsOf o s.transport) k with
  | error e =>
    obtain ⟨x, hx, y, hy, l, hl, l', hl', hne⟩ := associated_error hc
    exact absurd (hlone x hx y hy l hl l' hl') hne
  | ok companion =>
    cases companion with
    | none => rw [activatePhase, hc]
    | some name => simp only [activatePhase, hc, hphase, Bool.false_eq_true, if_false]

theorem activatePhase_detach {j : Phase} (hphase : t.hasPhase k = false)
    (hlone : LoneCompanion o s k) :
    a.activatePhase (o.detach k) t ((lawsOf o s.transport).map (detached k)) j =
      a.activatePhase o t (lawsOf o s.transport) j := by
  by_cases hj : j = k
  · rw [hj, activatePhase_detach_self, activatePhase_absent hphase hlone]
  · exact activatePhase_detach_of_ne hj

theorem inputsOf_detach : a.inputsOf (o.detach k) s names = a.inputsOf o s names := by
  induction names with
  | nil => rfl
  | cons name names ih =>
    simp only [inputsOf, Ontology.lawOf_detach, ih]
    cases o.lawOf name with
    | error e => rfl
    | ok law => simp only [Except.map, inputs_detach]

end Activation

namespace Closure

variable {o : Ontology} {s : Selection} {a : Activation} {k : Phase} {integral name : String}
  {names : List String} {v : Variable}

theorem definitionalOf_detach : definitionalOf (o.detach k) names = definitionalOf o names := by
  induction names with
  | nil => rfl
  | cons name names ih =>
    simp only [definitionalOf, Ontology.lawOf_detach, ih]
    cases o.lawOf name with
    | error e => rfl
    | ok law => simp only [Except.map, Law.isDefinitional_detach]

theorem defineByDefault_detach :
    defineByDefault (o.detach k) name v = defineByDefault o name v := by
  rw [defineByDefault, defineByDefault, definitionalOf_detach]

theorem defineByOverride_detach {law : String} :
    defineByOverride (o.detach k) name v law = defineByOverride o name v law := by
  simp only [defineByOverride, Ontology.lawOf_detach]
  cases o.lawOf law <;> rfl

theorem definitionOf_detach :
    definitionOf (o.detach k) s a integral name v = definitionOf o s a integral name v := by
  simp only [definitionOf, define, defineByDefault_detach, defineByOverride_detach]

/-- Closing takes the same turns. -/
theorem close_detach {defs : Dict String Definition} {pending : List String} :
    close (o.detach k) s a integral defs pending = close o s a integral defs pending := by
  induction defs, pending using close.induct o s a integral with
  | case1 defs pending hp => rw [Worklist.close_of_nil hp, Worklist.close_of_nil hp]
  | case2 defs pending name rest hp e hv =>
    rw [Worklist.close_of_cons hp, Worklist.close_of_cons hp]
    simp only [Ontology.variableOf_detach, hv]
  | case3 defs pending name rest hp v hv e hd =>
    rw [Worklist.close_of_cons hp, Worklist.close_of_cons hp]
    simp only [Ontology.variableOf_detach, hv, definitionOf_detach, hd]
  | case4 defs pending name rest hp v hv d hd e hi =>
    rw [Worklist.close_of_cons hp, Worklist.close_of_cons hp]
    simp only [Ontology.variableOf_detach, hv, definitionOf_detach, hd,
      Activation.inputsOf_detach, hi]
  | case5 defs pending name rest hp v hv d hd inputs hi ih =>
    rw [Worklist.close_of_cons hp, Worklist.close_of_cons hp]
    simp only [Ontology.variableOf_detach, hv, definitionOf_detach, hd,
      Activation.inputsOf_detach, hi]
    exact ih

end Closure

namespace Model

open Activation

variable {o : Ontology} {s : Selection} {t : Topology} {a : Activation} {k : Phase}
  {names : List String} {defs : Dict String Definition}

/-- The accumulation with its law on its own. -/
def Accumulation.detach (k : Phase) (acc : Accumulation) : Accumulation :=
  { acc with law := acc.law.detach k }

theorem accumulationOf_detach :
    accumulationOf (o.detach k) s = (accumulationOf o s).map (Accumulation.detach k) := by
  rw [accumulationOf, accumulationOf, lawsOf_detach]
  rcases lawsOf o [s.accumulation] with _ | ⟨⟨name, law⟩, _ | ⟨_, _⟩⟩
  · rfl
  · simp only [List.map_cons, List.map_nil, detached, Law.detach_differentialVariable,
      Law.detach_integralVariable, Law.detach_upperLimit]
    cases law.differentialVariable <;> cases law.integralVariable <;> cases law.upperLimit <;> rfl
  · rfl

theorem activated_detach {acc : Accumulation} (hphase : t.hasPhase k = false)
    (hlone : LoneCompanion o s k) :
    activated (o.detach k) s t (acc.detach k) = activated o s t acc := by
  simp only [activated, Accumulation.detach, activate_detach, lawsOf_detach, activateFlow_detach,
    activateAll_detach, activateReactions_detach, activatePhase_detach hphase hlone]

theorem seedsOf_detach : seedsOf (o.detach k) s a names = seedsOf o s a names := by
  induction names with
  | nil => rfl
  | cons name names ih =>
    simp only [seedsOf, Ontology.lawOf_detach, ih]
    cases o.lawOf name with
    | error e => rfl
    | ok law => simp only [Except.map, inputs_detach, Law.detach_differentialVariable]

theorem seeds_detach {acc : Accumulation} :
    seeds (o.detach k) s (acc.detach k) a = seeds o s acc a := by
  simp only [seeds, seedsOf_detach, Accumulation.detach]

theorem dependencies_detach {ds : List (String × Definition)} :
    dependencies (o.detach k) s a defs ds = dependencies o s a defs ds := by
  induction ds with
  | nil => rfl
  | cons d ds ih => simp only [dependencies, dependenciesOf, inputsOf_detach, ih]

/-- Detached companions of a phase that the plant lacks leave the model as it is, or the fault. -/
theorem resolve_detach (hphase : t.hasPhase k = false) (hlone : LoneCompanion o s k) :
    resolve (o.detach k) s t = resolve o s t := by
  rw [resolve, resolve, accumulationOf_detach]
  cases accumulationOf o s with
  | error e => rfl
  | ok acc =>
    simp only [Except.map, bind, Except.bind, activated_detach hphase hlone, seeds_detach,
      Closure.close_detach, dependencies_detach]
    rfl

theorem unmatched_detach : unmatched (o.detach k) s t = unmatched o s t := by
  simp only [unmatched, Activation.unmatched_detach]

end Model

end Kinetics

import Kinetics.Model.Closure
import Kinetics.Model.Order

/-!
# Kinetics.Model.Resolve

The model of a context. The accumulation law says what is integrated over what and up to where;
the selected phenomena switch on further laws; the variables are closed over their laws, and those
computed from laws are put in order.
-/

namespace Kinetics

namespace Model

/-- The accumulation law with its main state, the variable integrated over, and the upper limit. -/
structure Accumulation where
  name : String
  law : Law
  state : String
  integralVariable : String
  upperLimit : String

/-- The one law of the selected accumulation, which has to declare all it needs. -/
def accumulationOf (o : Ontology) (s : Selection) : Except Fault Accumulation :=
  match Activation.lawsOf o [s.accumulation] with
  | [] => .error (.noAccumulation s.accumulation)
  | [(name, law)] =>
    match law.differentialVariable, law.integralVariable, law.upperLimit with
    | some state, some integral, some limit => .ok ⟨name, law, state, integral, limit⟩
    | _, _, _ => .error (.nothingIntegrated name)
  | _ => .error (.severalAccumulations s.accumulation)

/-- The active laws of a selection, the law integrated jointly, and the states of phases. -/
structure Activated where
  activation : Activation
  jointLaw : Option String
  phaseStates : List StateEquation

/-- Switches on everything that a selection includes, in order: accumulation, flow pattern,
transport, equilibrium, reactions, gas and solid phase. -/
def activated (o : Ontology) (s : Selection) (t : Topology) (acc : Accumulation) :
    Except Fault Activated := do
  let a ← Activation.initial.activate o acc.name acc.law
  let (a, joint) ← a.activateFlow o none (Activation.lawsOf o [s.flowPattern])
  let transport := Activation.lawsOf o s.transport
  let a ← a.activateAll o transport
  let a ← a.activateAll o (Activation.lawsOf o s.equilibrium)
  let a ← a.activateReactions o s t.reactions.zipIdx
  let (a, gas) ← a.activatePhase o t transport .gas
  let (a, solid) ← a.activatePhase o t transport .solid
  return ⟨a, joint, gas ++ solid⟩

/-- What an active law brings into the model at the start: its inputs and what it integrates. -/
def seedsOf (o : Ontology) (s : Selection) (a : Activation) :
    List String → Except Fault (List String)
  | [] => .ok []
  | name :: names =>
    match o.lawOf name with
    | .error e => .error e
    | .ok law =>
      match seedsOf o s a names with
      | .error e => .error e
      | .ok rest =>
        .ok ((a.inputs s law).toList ++ law.differentialVariable.toList ++ rest)

/-- The variables that the closure starts from. -/
def seeds (o : Ontology) (s : Selection) (acc : Accumulation) (a : Activation) :
    Except Fault (List String) :=
  match seedsOf o s a a.active.toList with
  | .error e => .error e
  | .ok laws =>
    .ok ([acc.state, acc.integralVariable, acc.upperLimit] ++ laws ++ a.targets.keys ++
      if a.reactionLaws.isEmpty then [] else [Reaction.coefficientName])

/-- The computed variables among the inputs of a variable's laws; a law that reads its own target
keeps it. -/
def dependenciesOf (o : Ontology) (s : Selection) (a : Activation)
    (defs : Dict String Definition) (d : Definition) : Except Fault NameSet :=
  match a.inputsOf o s d.laws with
  | .error e => .error e
  | .ok names =>
    .ok (OrderedSet.ofList (names.filter fun n => (defs.find? n).any Definition.isComputed))

/-- The dependencies of every computed variable. -/
def dependencies (o : Ontology) (s : Selection) (a : Activation)
    (defs : Dict String Definition) :
    List (String × Definition) → Except Fault (Dict String NameSet)
  | [] => .ok Dict.empty
  | (name, d) :: ds =>
    if d.isComputed then
      match dependenciesOf o s a defs d with
      | .error e => .error e
      | .ok names =>
        match dependencies o s a defs ds with
        | .error e => .error e
        | .ok rest => .ok (rest.insert name names)
    else dependencies o s a defs ds

/-- Resolves a selection over an ontology. -/
def resolve (o : Ontology) (s : Selection) (t : Topology) : Except Fault Model := do
  let acc ← accumulationOf o s
  let r ← activated o s t acc
  let a := r.activation
  let pending ← seeds o s acc a
  let defs ← Closure.close o s a acc.integralVariable Dict.empty pending.reverse
  let deps ← dependencies o s a defs defs.entries
  let order ← Order.ofDependencies deps
  return {
    accumulation := acc.name
    integralVariable := acc.integralVariable
    upperLimit := acc.upperLimit
    states := ⟨acc.state, acc.name, none⟩ :: r.phaseStates
    jointLaw := r.jointLaw
    activeLaws := a.active.addAll (defs.values.flatMap Definition.laws)
    selected := OrderedSet.ofList (defs.keys.filter (a.selects s))
    definitions := defs
    order := order }

/-- The selected phenomena that no law of the ontology belongs to. -/
def unmatched (o : Ontology) (s : Selection) (t : Topology) : List String :=
  Activation.unmatched o [s.accumulation] ++ Activation.unmatched o [s.flowPattern] ++
    Activation.unmatched o s.transport ++ Activation.unmatched o s.equilibrium ++
    t.reactions.flatMap fun r =>
      Activation.unmatched o ((s.reactionPhenomena.find? r.text).getD [])

end Model

end Kinetics

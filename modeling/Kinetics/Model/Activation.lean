import Kinetics.Context.Basic
import Kinetics.Model.Definition
import Kinetics.Space.Topology

/-!
# Kinetics.Model.Activation

Which laws a context switches on. A phenomenon activates its laws; an active law integrates its
differential variable, or it targets the one variable that claims it. Laws of a gas or solid phase
come with the transport laws that name them, if the plant has such a phase.
-/

namespace Kinetics

structure Activation where
  /-- active laws by the variable they define -/
  targets : Dict String NameSet
  /-- active laws by position of the reaction they are selected for -/
  reactionLaws : Dict Nat NameSet
  /-- the law that integrates a variable -/
  stateLaws : Dict String String
  active : NameSet

namespace Activation

def initial : Activation :=
  ⟨Dict.empty, Dict.empty, Dict.empty, Dict.empty⟩

/-- The laws whose phenomenon is among the selected ones. -/
def lawsOf (o : Ontology) (selected : List String) : List (String × Law) :=
  o.laws.entries.filter fun e => e.2.phenomenon.any selected.contains

/-- The selected phenomena that no law belongs to. -/
def unmatched (o : Ontology) (selected : List String) : List String :=
  selected.filter fun p => !p.isEmpty && !o.laws.values.any fun l => l.phenomenon == some p

/-- The variables that claim a law. -/
def claimants (o : Ontology) (law : String) : List String :=
  (o.quantities.entries.filter fun e => e.2.laws.contains law).map Prod.fst

/-- The variable that claims a law, if there is one; two are at odds. -/
def target (o : Ontology) (law : String) : Except Fault (Option String) :=
  match claimants o law with
  | [] => .ok none
  | [v] => .ok (some v)
  | v :: w :: _ => .error (.claimedTwice law v w)

/-- Adds a name to the set of a key. -/
def addTo {κ : Type} [Ord κ] [Std.TransOrd κ] (d : Dict κ NameSet) (k : κ) (name : String) :
    Dict κ NameSet :=
  d.insert k (((d.find? k).getD Dict.empty).add name)

/-- Switches a law on. -/
def activate (o : Ontology) (a : Activation) (name : String) (law : Law) :
    Except Fault Activation :=
  let a := { a with active := a.active.add name }
  match law.differentialVariable with
  | some state => .ok { a with stateLaws := a.stateLaws.insert state name }
  | none =>
    match target o name with
    | .error e => .error e
    | .ok (some v) => .ok { a with targets := addTo a.targets v name }
    | .ok none =>
      if law.jointFormula.isSome then .ok a else .error (.definesNothing name)

def activateAll (o : Ontology) (a : Activation) : List (String × Law) → Except Fault Activation
  | [] => .ok a
  | (name, law) :: ls =>
    match a.activate o name law with
    | .error e => .error e
    | .ok a => a.activateAll o ls

/-- Switches on the laws of the flow pattern, and returns the one that is integrated jointly with
accumulation. -/
def activateFlow (o : Ontology) (a : Activation) (joint : Option String) :
    List (String × Law) → Except Fault (Activation × Option String)
  | [] => .ok (a, joint)
  | (name, law) :: ls =>
    match a.activate o name law with
    | .error e => .error e
    | .ok a =>
      if law.jointFormula.isSome then
        if joint.isSome then .error .severalJointLaws else a.activateFlow o (some name) ls
      else a.activateFlow o joint ls

/-- Switches on the laws selected for one reaction. -/
def activateReaction (o : Ontology) (position : Nat) (a : Activation) :
    List (String × Law) → Except Fault Activation
  | [] => .ok a
  | (name, law) :: ls =>
    match a.activate o name law with
    | .error e => .error e
    | .ok a =>
      activateReaction o position
        { a with reactionLaws := addTo a.reactionLaws position name } ls

/-- Switches on the laws selected for each reaction; reactions come with their positions. -/
def activateReactions (o : Ontology) (s : Selection) (a : Activation) :
    List (Reaction × Nat) → Except Fault Activation
  | [] => .ok a
  | (r, position) :: rs =>
    match activateReaction o position a
        (lawsOf o ((s.reactionPhenomena.find? r.text).getD [])) with
    | .error e => .error e
    | .ok a => a.activateReactions o s rs

/-- The one law of a phase that the transport laws name, if any; two are at odds. -/
def associated (transport : List (String × Law)) (k : Phase) : Except Fault (Option String) :=
  match (OrderedSet.ofList (transport.filterMap fun e => e.2.associated k) : NameSet).toList with
  | [] => .ok none
  | [law] => .ok (some law)
  | laws => .error (.severalAssociated k laws)

/-- Switches on the law of a phase that the plant has, and returns the state it integrates. -/
def activatePhase (o : Ontology) (t : Topology) (transport : List (String × Law))
    (a : Activation) (k : Phase) : Except Fault (Activation × List StateEquation) :=
  match associated transport k with
  | .error e => .error e
  | .ok none => .ok (a, [])
  | .ok (some name) =>
    if t.hasPhase k then
      match o.lawOf name with
      | .error e => .error e
      | .ok law =>
        match a.activate o name law with
        | .error e => .error e
        | .ok a =>
          .ok (a, (law.differentialVariable.map fun v => ⟨v, name, some k⟩).toList)
    else .ok (a, [])

/-- A variable that an active law or an override defines. -/
def selects (a : Activation) (s : Selection) (name : String) : Bool :=
  a.targets.contains name || a.stateLaws.contains name || s.overrides.contains name

/-- The variables that a law reads: its inputs, and those of its optional inputs that are
selected. -/
def inputs (a : Activation) (s : Selection) (l : Law) : NameSet :=
  l.inputs.addAll (l.optionalInputs.toList.filter (a.selects s))

/-- The inputs of a list of laws, law by law. -/
def inputsOf (o : Ontology) (a : Activation) (s : Selection) :
    List String → Except Fault (List String)
  | [] => .ok []
  | name :: names =>
    match o.lawOf name with
    | .error e => .error e
    | .ok law =>
      match inputsOf o a s names with
      | .error e => .error e
      | .ok rest => .ok ((a.inputs s law).toList ++ rest)

end Activation

end Kinetics

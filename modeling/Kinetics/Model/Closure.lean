import Kinetics.Model.Activation

/-!
# Kinetics.Model.Closure

The variables that a model has to know about. Each variable has one definition; the laws of a
definition bring in their inputs, until no new variable turns up. Since every variable comes from
the ontology and is defined once, this comes to an end.
-/

namespace Kinetics

namespace Closure

/-- The law of a variable for each reaction that has exactly one; two for one reaction are at
odds. -/
def reactionLawsOf (name : String) (laws : NameSet) :
    List (Nat × NameSet) → Except Fault (List (Nat × String))
  | [] => .ok []
  | (r, active) :: rs =>
    match active.common laws with
    | [] => reactionLawsOf name laws rs
    | [law] =>
      match reactionLawsOf name laws rs with
      | .error e => .error e
      | .ok rest => .ok ((r, law) :: rest)
    | _ => .error (.severalForReaction name r)

/-- The definition of a variable from the active laws that target it. -/
def defineByTargets (a : Activation) (name : String) (v : Variable) (laws : NameSet) :
    Except Fault Definition :=
  match reactionLawsOf name laws a.reactionLaws.entries with
  | .error e => .error e
  | .ok chosen =>
    let others := laws.toList.filter fun l => !chosen.any fun c => c.2 == l
    match chosen, others with
    | [], [law] => .ok (.derived law)
    | _ :: _, [] =>
      match Shape.ofDimensions v.dimensions with
      | .error e => .error e
      | .ok shape =>
        if shape.overReactions then .ok (.perReaction (Dict.ofList chosen))
        else
          match (OrderedSet.ofList (chosen.map Prod.snd) : NameSet).toList with
          | [law] => .ok (.derived law)
          | _ => .error (.reactionsDisagree name)
    | _, _ => .error (.severalActive name)

/-- The definitional laws among those that a variable claims. -/
def definitionalOf (o : Ontology) : List String → Except Fault (List String)
  | [] => .ok []
  | name :: names =>
    match o.lawOf name with
    | .error e => .error e
    | .ok law =>
      match definitionalOf o names with
      | .error e => .error e
      | .ok rest => .ok (if law.isDefinitional then name :: rest else rest)

/-- The definition of a variable from its definitional laws; without one it is an input. -/
def defineByDefault (o : Ontology) (name : String) (v : Variable) : Except Fault Definition :=
  match definitionalOf o v.laws.toList with
  | .error e => .error e
  | .ok [] => .ok .leaf
  | .ok [law] => .ok (.derived law)
  | .ok laws => .error (.severalDefinitional name laws)

/-- The definition by an override, whose law the variable has to claim. -/
def defineByOverride (o : Ontology) (name : String) (v : Variable) (law : String) :
    Except Fault Definition :=
  if v.laws.contains law then
    match o.lawOf law with
    | .error e => .error e
    | .ok _ => .ok (.derived law)
  else .error (.foreignOverride law name)

/-- The definition of a variable other than the one integrated over. A state comes before a
constant, then an override, active laws, and definitional laws. -/
def define (o : Ontology) (s : Selection) (a : Activation) (name : String) (v : Variable) :
    Except Fault Definition :=
  match a.stateLaws.find? name with
  | some law => .ok (.state law)
  | none =>
    if v.role = .constant then .ok .constant
    else
      match s.overrides.find? name with
      | some law => defineByOverride o name v law
      | none =>
        match a.targets.find? name with
        | some laws => defineByTargets a name v laws
        | none => defineByDefault o name v

/-- The definition of a variable. -/
def definitionOf (o : Ontology) (s : Selection) (a : Activation) (integral name : String)
    (v : Variable) : Except Fault Definition :=
  if name = integral then .ok .independent else define o s a name v

/-- How many variables of the ontology have no definition yet. -/
def undefinedCount (o : Ontology) (defs : Dict String Definition) : Nat :=
  o.quantities.keys.countP fun k => !defs.contains k

theorem undefinedCount_insert {o : Ontology} {defs : Dict String Definition} {name : String}
    {v : Variable} {d : Definition} (hv : o.variableOf name = .ok v)
    (hd : defs.contains name = false) :
    undefinedCount o (defs.insert name d) < undefinedCount o defs := by
  refine countP_lt (Dict.mem_keys_of_find? (Ontology.variableOf_ok.1 hv)) (by simp [hd]) ?_
    fun y hy => ?_
  · simp [Dict.contains_insert]
  · simp [Dict.contains_insert] at hy ⊢
    exact hy.2

theorem not_contains_of_dropWhile {defs : Dict String Definition} {pending rest : List String}
    {name : String} (h : pending.dropWhile defs.contains = name :: rest) :
    defs.contains name = false := by
  have := List.head?_dropWhile_not defs.contains pending
  rw [h] at this
  simpa using this

/-- Defines the pending variables, the first one without a definition first, and whatever they
bring in. -/
def close (o : Ontology) (s : Selection) (a : Activation) (integral : String)
    (defs : Dict String Definition) (pending : List String) :
    Except Fault (Dict String Definition) :=
  match _hp : pending.dropWhile defs.contains with
  | [] => .ok defs
  | name :: rest =>
    match _hv : o.variableOf name with
    | .error e => .error e
    | .ok v =>
      match definitionOf o s a integral name v with
      | .error e => .error e
      | .ok d =>
        match a.inputsOf o s d.laws with
        | .error e => .error e
        | .ok inputs => close o s a integral (defs.insert name d) (inputs.reverse ++ rest)
termination_by undefinedCount o defs
decreasing_by exact undefinedCount_insert _hv (not_contains_of_dropWhile _hp)

end Closure

end Kinetics

import Kinetics.Formula.Optional
import Kinetics.Program.Layout

/-!
# Kinetics.Program.Formulas

The formulas of a model's laws, compiled. Optional brackets are resolved by the optional inputs
that are not selected, every symbol of the result has to be bound, and no law may read the variable
it computes.
-/

namespace Kinetics

namespace Program

open Formula

abbrev Formulas :=
  Dict String Expression

namespace Formulas

/-- The symbols of those optional inputs of a law that are not selected. -/
def unselected (o : Ontology) (selected : NameSet) : List String → Except Fault (Noted NameSet)
  | [] => .ok ⟨Dict.empty, []⟩
  | name :: names =>
    if selected.contains name then unselected o selected names
    else do
      let v ← o.variableOf name
      let symbol ← readSymbol v.symbol
      let rest ← unselected o selected names
      return ⟨rest.result.add symbol.result, symbol.skipped ++ rest.skipped⟩

/-- Compiles the value side of a law's formula. -/
def ofLaw (o : Ontology) (selected : NameSet) (n : Names) (law : Law)
    (name markup : String) : Except Fault (Noted Expression) := do
  let tree ← parse markup
  let missing ← unselected o selected law.optionalInputs.toList
  let pruned ← tree.split.value.prune fun symbols => symbols.disjoint missing.result
  let e ← pruned.result.compile ""
  match e.freeSymbols.toList.find? fun s => !n.bindings.contains s with
  | some symbol => .error (.notInModel symbol name)
  | none => .ok ⟨e, missing.skipped ++ pruned.skipped ++ e.skipped⟩

/-- Compiles a list of laws. -/
def ofLaws (o : Ontology) (selected : NameSet) (n : Names) (fs : Formulas) :
    List String → Except Fault (Noted Formulas)
  | [] => .ok ⟨fs, []⟩
  | name :: names => do
    let law ← o.lawOf name
    let e ← ofLaw o selected n law name law.formula
    let rest ← ofLaws o selected n (fs.insert name e.result) names
    return ⟨rest.result, e.skipped ++ rest.skipped⟩

/-- Compiles the formula that is integrated jointly, under the law's name with the suffix of
fluxes. -/
def withJoint (o : Ontology) (selected : NameSet) (n : Names) (fs : Formulas) :
    Option String → Except Fault (Noted Formulas)
  | none => .ok ⟨fs, []⟩
  | some name => do
    let law ← o.lawOf name
    let e ← ofLaw o selected n law name (law.jointFormula.getD "")
    return ⟨fs.insert (name ++ fluxSuffix) e.result, e.skipped⟩

/-- The definition of a variable of the model. -/
def definitionOf (m : Model) (name : String) : Except Fault Definition :=
  m.definitions.get name (.unlisted name)

/-- The laws of a list of computed variables. -/
def lawsOf (m : Model) : List String → Except Fault (List String)
  | [] => .ok []
  | name :: names => do
    let d ← definitionOf m name
    let rest ← lawsOf m names
    return d.laws ++ rest

/-- Fails with the first law in a list that reads a variable's own symbol. -/
def checkLaws (fs : Formulas) (name symbol : String) : List String → Except Fault Unit
  | [] => .ok ()
  | law :: laws => do
    let e ← fs.get law (.unlisted law)
    if e.freeSymbols.contains symbol then .error (.ownFormula law name)
    else checkLaws fs name symbol laws

/-- Fails if a computed variable occurs in a formula that defines it. -/
def checkOwn (m : Model) (n : Names) (fs : Formulas) : List String → Except Fault Unit
  | [] => .ok ()
  | name :: names => do
    let symbol ← n.symbolOf name
    let d ← definitionOf m name
    checkLaws fs name symbol d.laws
    checkOwn m n fs names

/-- The compiled formulas of a model. -/
def ofModel (o : Ontology) (m : Model) (n : Names) : Except Fault (Noted Formulas) := do
  let laws ← lawsOf m m.order
  let all : NameSet := (OrderedSet.ofList laws).addAll (m.states.map StateEquation.law)
  let fs ← ofLaws o m.selected n Dict.empty all.toList
  let joint ← withJoint o m.selected n fs.result m.jointLaw
  checkOwn m n joint.result m.order
  return ⟨joint.result, fs.skipped ++ joint.skipped⟩

end Formulas

end Program

end Kinetics

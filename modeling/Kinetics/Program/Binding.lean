import Kinetics.Model.Definition
import Kinetics.Program.Literal
import Kinetics.Space.Access

/-!
# Kinetics.Program.Binding

What the variables of a model are called. A variable has a symbol in formulas, and the symbol is
bound to a name and a shape in the program. Neither a symbol nor a name is taken twice.
-/

namespace Kinetics

namespace Program

open Formula

structure Names where
  /-- by symbol -/
  bindings : Dict String Binding
  /-- the symbols of variables -/
  symbols : Dict String String

namespace Names

def empty : Names :=
  ⟨Dict.empty, Dict.empty⟩

/-- Binds the symbol of a variable. -/
def bind (n : Names) (symbol variableName : String) (b : Binding) : Except Fault Names :=
  if n.bindings.contains symbol then .error (.symbolTaken variableName symbol)
  else if n.bindings.values.any fun c => c.name == b.name then
    .error (.symbolTaken variableName b.name)
  else .ok ⟨n.bindings.insert symbol b, n.symbols.insert variableName symbol⟩

def symbolOf (n : Names) (variableName : String) : Except Fault String :=
  n.symbols.get variableName (.unlisted variableName)

def entryOf (n : Names) (variableName : String) : Except Fault Binding :=
  match n.symbolOf variableName with
  | .error e => .error e
  | .ok symbol => n.bindings.get symbol (.unlisted symbol)

/-- The shape of a variable; coefficients range over reactions and species whatever the ontology
says. -/
def layoutShape (name : String) (v : Variable) : Except Fault Shape :=
  if name = Reaction.coefficientName then .ok .reactionSpecies
  else Shape.ofDimensions v.dimensions

/-- Binds the symbols of a list of variables. -/
def bindAll (o : Ontology) (n : Names) : List String → Except Fault (Noted Names)
  | [] => .ok ⟨n, []⟩
  | name :: names => do
    let v ← o.variableOf name
    let symbol ← readSymbol v.symbol
    let shape ← layoutShape name v
    let n ← n.bind symbol.result name ⟨nameOf symbol.result, shape⟩
    let rest ← bindAll o n names
    return ⟨rest.result, symbol.skipped ++ rest.skipped⟩

end Names

end Program

end Kinetics

import Kinetics.Ontology.Basic
import Kinetics.Parameter.Document

/-!
# Kinetics.Ontology.Document

The JSON form of ontologies. Optional fields may be absent or null and are left out when written;
sets are arrays, maps are objects.
-/

namespace Kinetics

open Json

namespace Dimension

def words : List (String × Dimension) :=
  all.map fun d => (d.word, d)

def toJson (d : Dimension) : Json :=
  ofString d.word

def ofJson? : Json → Option Dimension :=
  asEnumerated words

def setOfJson? : Json → Option (OrderedSet Dimension) :=
  asSet ofJson?

end Dimension

namespace VariableRole

def all : List VariableRole :=
  [.constant, .operationParameter, .modelParameter, .stateVariable, .independentVariable,
    .quantity]

def word : VariableRole → String
  | .constant => "constant"
  | .operationParameter => "operation_parameter"
  | .modelParameter => "model_parameter"
  | .stateVariable => "state_variable"
  | .independentVariable => "independent_variable"
  | .quantity => "quantity"

def toJson (r : VariableRole) : Json :=
  ofString r.word

def ofJson? : Json → Option VariableRole :=
  asEnumerated (all.map fun r => (r.word, r))

end VariableRole

namespace Variable

def fieldNames : List String :=
  ["class", "symbol", "unit", "dims", "laws", "fixed_value"]

def toJson (v : Variable) : Json :=
  record
    ([("class", v.role.toJson), ("symbol", ofString v.symbol)] ++
      present "unit" ofString v.unit ++
      [("dims", ofSet Dimension.toJson v.dimensions), ("laws", ofSet ofString v.laws)] ++
      present "fixed_value" ofFloat v.fixedValue)

def ofJson? (j : Json) : Option Variable :=
  match fields? fieldNames j with
  | some [role, symbol, unit, dimensions, laws, fixedValue] =>
    match required VariableRole.ofJson? role, required asText symbol,
      defaulted none (nullable asText) unit, defaulted Dict.empty Dimension.setOfJson? dimensions,
      defaulted Dict.empty (asSet asText) laws, defaulted none (nullable asFloat) fixedValue with
    | some r, some s, some u, some d, some l, some x => some ⟨r, s, u, d, l, x⟩
    | _, _, _, _, _, _ => none
  | _ => none

end Variable

namespace Law

def fieldNames : List String :=
  ["formula", "phenomenon", "vars", "opt_vars", "associated_gas_law", "associated_solid_law",
    "integral_var", "integral_upper_limit", "differential_var",
    "formula_integrated_with_accumulation"]

def toJson (l : Law) : Json :=
  record
    ([("formula", ofString l.formula)] ++ present "phenomenon" ofString l.phenomenon ++
      [("vars", ofSet ofString l.inputs), ("opt_vars", ofSet ofString l.optionalInputs)] ++
      present "associated_gas_law" ofString l.gasLaw ++
      present "associated_solid_law" ofString l.solidLaw ++
      present "integral_var" ofString l.integralVariable ++
      present "integral_upper_limit" ofString l.upperLimit ++
      present "differential_var" ofString l.differentialVariable ++
      present "formula_integrated_with_accumulation" ofString l.jointFormula)

def optionalText : Option Json → Option (Option String) :=
  defaulted none (nullable asText)

def ofJson? (j : Json) : Option Law :=
  match fields? fieldNames j with
  | some [formula, phenomenon, inputs, optionalInputs, gasLaw, solidLaw, integralVariable,
      upperLimit, differentialVariable, jointFormula] =>
    match required asText formula, optionalText phenomenon,
      defaulted Dict.empty (asSet asText) inputs,
      defaulted Dict.empty (asSet asText) optionalInputs, optionalText gasLaw,
      optionalText solidLaw, optionalText integralVariable, optionalText upperLimit,
      optionalText differentialVariable, optionalText jointFormula with
    | some f, some p, some i, some o, some g, some s, some v, some u, some d, some k =>
      some ⟨f, p, i, o, g, s, v, u, d, k⟩
    | _, _, _, _, _, _, _, _, _, _ => none
  | _ => none

end Law

namespace Ontology

def fieldNames : List String :=
  ["variables", "laws", "units"]

def toJson (o : Ontology) : Json :=
  record
    [("variables", ofDict Variable.toJson o.quantities), ("laws", ofDict Law.toJson o.laws),
      ("units", ofDict Scale.toJson o.units)]

def ofJson? (j : Json) : Option Ontology :=
  match fields? fieldNames j with
  | some [quantities, laws, units] =>
    match defaulted Dict.empty (asDict Variable.ofJson?) quantities,
      defaulted Dict.empty (asDict Law.ofJson?) laws,
      defaulted Dict.empty (asDict Scale.ofJson?) units with
    | some v, some l, some u => some ⟨v, l, u⟩
    | _, _, _ => none
  | _ => none

end Ontology

end Kinetics

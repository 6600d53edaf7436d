import Kinetics.Context.Basic
import Kinetics.Parameter.Document

/-!
# Kinetics.Context.Document

The JSON form of model contexts. Every field may be absent and is always written; a stream, gas or
solid is a record of its species.
-/

namespace Kinetics

open Json

namespace ModelKind

def word : ModelKind → String
  | .steady => "steady"
  | .dynamic => "dynamic"

def toJson (k : ModelKind) : Json :=
  ofString k.word

def ofJson? : Json → Option ModelKind :=
  asEnumerated [(word .steady, .steady), (word .dynamic, .dynamic)]

end ModelKind

namespace Plant

def groupToJson (members : List String) : Json :=
  record [("species", ofList ofString members)]

def groupOfJson? (j : Json) : Option (List String) :=
  match fields? ["species"] j with
  | some [species] => defaulted [] (asList asText) species
  | _ => none

def fieldNames : List String :=
  ["species", "reactions", "streams", "gases", "solids"]

def toJson (p : Plant) : Json :=
  record
    [("species", ofList ofString p.species), ("reactions", ofList ofString p.reactions),
      ("streams", ofDict groupToJson p.streams), ("gases", ofDict groupToJson p.gases),
      ("solids", ofDict groupToJson p.solids)]

def groups? : Option Json → Option (Dict String (List String)) :=
  defaulted Dict.empty (asDict groupOfJson?)

def ofJson? (j : Json) : Option Plant :=
  match fields? fieldNames j with
  | some [species, reactions, streams, gases, solids] =>
    match defaulted [] (asList asText) species, defaulted [] (asList asText) reactions,
      groups? streams, groups? gases, groups? solids with
    | some s, some r, some t, some g, some d => some ⟨s, r, t, g, d⟩
    | _, _, _, _, _ => none
  | _ => none

end Plant

namespace Selection

def fieldNames : List String :=
  ["accumulation", "flow_pattern", "mass_transport", "mass_equilibrium", "reaction_phenomena",
    "param_law_override"]

def toJson (s : Selection) : Json :=
  record
    [("accumulation", ofString s.accumulation), ("flow_pattern", ofString s.flowPattern),
      ("mass_transport", ofList ofString s.transport),
      ("mass_equilibrium", ofList ofString s.equilibrium),
      ("reaction_phenomena", ofDict (ofList ofString) s.reactionPhenomena),
      ("param_law_override", ofDict ofString s.overrides)]

def ofJson? (j : Json) : Option Selection :=
  match fields? fieldNames j with
  | some [accumulation, flowPattern, transport, equilibrium, reactionPhenomena, overrides] =>
    match defaulted "" asText accumulation, defaulted "" asText flowPattern,
      defaulted [] (asList asText) transport, defaulted [] (asList asText) equilibrium,
      defaulted Dict.empty (asDict (asList asText)) reactionPhenomena,
      defaulted Dict.empty (asDict asText) overrides with
    | some a, some f, some t, some e, some r, some o => some ⟨a, f, t, e, r, o⟩
    | _, _, _, _, _, _ => none
  | _ => none

end Selection

namespace KnownValue

def toJson (k : KnownValue) : Json :=
  record [("index", k.index.toJson), ("value", k.value.toJson)]

def ofJson? (j : Json) : Option KnownValue :=
  match fields? ["index", "value"] j with
  | some [index, value] =>
    match required ParameterIndex.ofJson? index, required ParameterValue.ofJson? value with
    | some i, some v => some ⟨i, v⟩
    | _, _ => none
  | _ => none

end KnownValue

namespace ModelContext

def fieldNames : List String :=
  ["kind", "basic", "description", "known_values"]

def toJson (c : ModelContext) : Json :=
  record
    [("kind", c.kind.toJson), ("basic", c.plant.toJson), ("description", c.selection.toJson),
      ("known_values", ofList KnownValue.toJson c.knownValues)]

def ofJson? (j : Json) : Option ModelContext :=
  match fields? fieldNames j with
  | some [kind, plant, selection, knownValues] =>
    match defaulted .steady ModelKind.ofJson? kind,
      defaulted Plant.empty Plant.ofJson? plant,
      defaulted Selection.empty Selection.ofJson? selection,
      defaulted [] (asList KnownValue.ofJson?) knownValues with
    | some k, some p, some s, some v => some ⟨k, p, s, v⟩
    | _, _, _, _ => none
  | _ => none

end ModelContext

end Kinetics

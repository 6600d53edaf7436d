import Kinetics.Json.Record
import Kinetics.Parameter.Index
import Kinetics.Parameter.Value

/-!
# Kinetics.Parameter.Document

The JSON form of indices, values and units. An index is an array of its five parts, the first a
string and the others string or null; a value is a number or an array of numbers.
-/

namespace Kinetics

open Json

namespace ParameterIndex

def toJson (i : ParameterIndex) : Json :=
  .array [ofString i.name, ofOption ofString i.phase, ofOption ofString i.stream,
    ofOption ofString i.reaction, ofOption ofString i.species]

def ofJson? : Json → Option ParameterIndex
  | .array [name, phase, stream, reaction, species] =>
    match asText name, nullable asText phase, nullable asText stream, nullable asText reaction,
      nullable asText species with
    | some n, some p, some s, some r, some c => some ⟨n, p, s, r, c⟩
    | _, _, _, _, _ => none
  | _ => none

end ParameterIndex

namespace ParameterValue

def toJson : ParameterValue Float → Json
  | .scalar x => ofFloat x
  | .series xs => ofList ofFloat xs

def ofJson? : Json → Option (ParameterValue Float)
  | .number n => n.toFloat?.map .scalar
  | .array js => (sequence asFloat js).map .series
  | _ => none

end ParameterValue

namespace Scale

def fieldNames : List String :=
  ["ratio_to_standard", "intercept"]

def toJson (s : Scale Float) : Json :=
  record (present "ratio_to_standard" ofFloat s.ratio ++ present "intercept" ofFloat s.intercept)

def ofJson? (j : Json) : Option (Scale Float) :=
  match fields? fieldNames j with
  | some [ratio, intercept] =>
    match defaulted none (nullable asFloat) ratio,
      defaulted none (nullable asFloat) intercept with
    | some r, some b => some ⟨r, b⟩
    | _, _ => none
  | _ => none

end Scale

end Kinetics

import Kinetics.Model.Definition
import Kinetics.Parameter.Document
import Kinetics.Space.Point
import Kinetics.Context.Basic

/-!
# Kinetics.Parameter.Table

The inputs of a model, scalar by scalar, with their values in standard units. Inputs and states
have an entry for each of their points, coefficients one for each participant of a reaction. Known
values replace fixed ones and add no entry. Operation parameters and states may have no value yet.
-/

namespace Kinetics

abbrev TableEntries :=
  Dict ParameterIndex (Option (ParameterValue Float))

structure ParameterTable where
  entries : TableEntries

namespace ParameterTable

def size (t : ParameterTable) : Nat :=
  t.entries.size

def isEmpty (t : ParameterTable) : Bool :=
  t.entries.isEmpty

def contains (t : ParameterTable) (i : ParameterIndex) : Bool :=
  t.entries.contains i

/-- The value of an entry, if there is an entry and it has a value. -/
def value? (t : ParameterTable) (i : ParameterIndex) : Option (ParameterValue Float) :=
  (t.entries.find? i).join

def indices (t : ParameterTable) : List ParameterIndex :=
  t.entries.keys

/-- The entries of one variable. -/
def indicesOf (t : ParameterTable) (name : String) : List ParameterIndex :=
  t.indices.filter fun i => i.name == name

def toJson (t : ParameterTable) : Json :=
  Json.ofList
    (fun e =>
      Json.record
        [("index", e.1.toJson), ("value", Json.ofOption ParameterValue.toJson e.2)])
    t.entries.entries

/-- Adds an entry with one value for each of a list of points. -/
def addPoints (t : Topology) (name : String) (value : Option (ParameterValue Float))
    (es : TableEntries) (ps : List Point) : TableEntries :=
  ps.foldl (fun es p => es.insert (t.indexAt name p) value) es

/-- Adds the entries of every input and state but the coefficients. -/
def addVariables (o : Ontology) (t : Topology) (es : TableEntries) :
    List (String × Definition) → Except Fault TableEntries
  | [] => .ok es
  | (name, d) :: ds =>
    if d.isTabled && name != Reaction.coefficientName then
      match o.variableOf name with
      | .error e => .error e
      | .ok v =>
        match Shape.ofDimensions v.dimensions with
        | .error e => .error e
        | .ok shape =>
          addVariables o t
            (addPoints t name (v.fixedValue.map .scalar) es (t.points shape)) ds
    else addVariables o t es ds

/-- Adds the coefficients of all reactions. -/
def addCoefficients (t : Topology) (es : TableEntries) : TableEntries :=
  (Reaction.stoichiometry t.reactions).foldl
    (fun es e => es.insert e.1 (some (.scalar e.2.toFloat))) es

/-- Sets the entry of a known value, if there is one. -/
def setKnown (es : TableEntries) (k : KnownValue) : TableEntries :=
  if es.contains k.index then es.insert k.index (some k.value) else es

/-- Whether an entry may have no value until the program runs. -/
def mayLackValue (v : Variable) (d : Definition) : Bool :=
  v.role == .operationParameter || d.isState

/-- An entry in standard units; coefficients have no unit. -/
def standardEntry (o : Ontology) (defs : Dict String Definition) (i : ParameterIndex)
    (value : Option (ParameterValue Float)) : Except Fault (Option (ParameterValue Float)) :=
  if i.name = Reaction.coefficientName then .ok value
  else
    match o.variableOf i.name with
    | .error e => .error e
    | .ok v =>
      match value with
      | some x => .ok (some (Scale.rescale negligibleRatio (o.unitOf v) x))
      | none =>
        match defs.get i.name (.unlisted i.name) with
        | .error e => .error e
        | .ok d => if mayLackValue v d then .ok none else .error (.noValue i)

/-- All entries in standard units; the first one that lacks a value it needs is at fault. -/
def standardEntries (o : Ontology) (defs : Dict String Definition) :
    List (ParameterIndex × Option (ParameterValue Float)) →
      Except Fault (List (ParameterIndex × Option (ParameterValue Float)))
  | [] => .ok []
  | (i, value) :: es =>
    match standardEntry o defs i value with
    | .error e => .error e
    | .ok value =>
      match standardEntries o defs es with
      | .error e => .error e
      | .ok rest => .ok ((i, value) :: rest)

/-- The entries before known values are set. -/
def declared (o : Ontology) (t : Topology) (m : Model) : Except Fault TableEntries :=
  match addVariables o t Dict.empty m.definitions.entries with
  | .error e => .error e
  | .ok es =>
    .ok (if m.definitions.contains Reaction.coefficientName then addCoefficients t es else es)

/-- The table of a model. -/
def build (o : Ontology) (known : List KnownValue) (t : Topology) (m : Model) :
    Except Fault ParameterTable :=
  match declared o t m with
  | .error e => .error e
  | .ok es =>
    match standardEntries o m.definitions (known.foldl setKnown es).entries with
    | .error e => .error e
    | .ok es => .ok ⟨Dict.ofList es⟩

/-- The indices of known values that are no input of the model. -/
def ignoredValues (o : Ontology) (known : List KnownValue) (t : Topology) (m : Model) :
    List ParameterIndex :=
  match declared o t m with
  | .error _ => []
  | .ok es => (known.filter fun k => !es.contains k.index).map KnownValue.index

end ParameterTable

end Kinetics

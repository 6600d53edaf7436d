import Kinetics.Dict
import Kinetics.Fault
import Kinetics.Parameter.Value

/-!
# Kinetics.Context.Basic

The context of one model: the plant it describes, the phenomena selected for it, and the values
already known. Streams, gases and solids hold species by name, and a context is closed when every
name it uses is declared.
-/

namespace Kinetics

inductive ModelKind where
  | steady
  | dynamic
  deriving DecidableEq

/-- The members of a plant. -/
structure Plant where
  species : List String
  reactions : List String
  streams : Dict String (List String)
  gases : Dict String (List String)
  solids : Dict String (List String)
  deriving DecidableEq

/-- The phenomena that a model includes, and the laws it insists on. -/
structure Selection where
  accumulation : String
  flowPattern : String
  transport : List String
  equilibrium : List String
  reactionPhenomena : Dict String (List String)
  overrides : Dict String String
  deriving DecidableEq

structure KnownValue where
  index : ParameterIndex
  value : ParameterValue Float

structure ModelContext where
  kind : ModelKind
  plant : Plant
  selection : Selection
  knownValues : List KnownValue

namespace Plant

def empty : Plant :=
  ⟨[], [], Dict.empty, Dict.empty, Dict.empty⟩

/-- The first name in a list that is no declared species. -/
def undeclared? (p : Plant) (names : List String) : Option String :=
  names.find? fun s => !p.species.contains s

/-- Fails with the first undeclared species in a family of groups. -/
def checkGroups (p : Plant) (family : String) : List (String × List String) → Except Fault Unit
  | [] => .ok ()
  | (name, members) :: gs =>
    match p.undeclared? members with
    | some s => .error (.undeclaredMember family name s)
    | none => checkGroups p family gs

end Plant

def Selection.empty : Selection :=
  ⟨"", "", [], [], Dict.empty, Dict.empty⟩

namespace ModelContext

/-- Every species that a group holds and every reaction that phenomena are selected for has to be
declared. -/
def validate (c : ModelContext) : Except Fault Unit :=
  match c.plant.checkGroups "stream" c.plant.streams.entries with
  | .error e => .error e
  | .ok _ =>
    match c.plant.checkGroups "gas" c.plant.gases.entries with
    | .error e => .error e
    | .ok _ =>
      match c.plant.checkGroups "solid" c.plant.solids.entries with
      | .error e => .error e
      | .ok _ =>
        match c.selection.reactionPhenomena.keys.find? fun r =>
            !c.plant.reactions.contains r with
        | some r => .error (.undeclaredReaction r)
        | none => .ok ()

end ModelContext

end Kinetics

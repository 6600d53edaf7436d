import Kinetics.Context.Basic
import Kinetics.Reaction.Basic
import Kinetics.Space.Shape

/-!
# Kinetics.Space.Topology

A plant with its names resolved: reactions are read, and the members of streams and phases are
positions in the list of species.
-/

namespace Kinetics

/-- A stream or phase with the species it holds, in ascending positions. -/
structure Group where
  name : String
  species : List Nat
  deriving DecidableEq

structure Topology where
  species : List String
  reactions : List Reaction
  streams : List Group
  gases : List Group
  solids : List Group
  deriving DecidableEq

namespace Topology

/-- The positions of a list of names, ascending and without repetition; a name stands at its first
position, and one that is not declared is left out. -/
def positions (species names : List String) : List Nat :=
  (List.range species.length).filter fun i => names.any fun s => species.idxOf? s == some i

def groups (species : List String) (gs : Dict String (List String)) : List Group :=
  gs.entries.map fun g => ⟨g.1, positions species g.2⟩

def readReactions (species : List String) : List String → Except Fault (List Reaction)
  | [] => .ok []
  | text :: texts =>
    match Reaction.read species text with
    | .error e => .error e
    | .ok r =>
      match readReactions species texts with
      | .error e => .error e
      | .ok rs => .ok (r :: rs)

def ofPlant (p : Plant) : Except Fault Topology :=
  match readReactions p.species p.reactions with
  | .error e => .error e
  | .ok rs =>
    .ok ⟨p.species, rs, groups p.species p.streams, groups p.species p.gases,
      groups p.species p.solids⟩

def phases (t : Topology) : Phase → List Group
  | .gas => t.gases
  | .solid => t.solids

def hasPhase (t : Topology) (k : Phase) : Bool :=
  !(t.phases k).isEmpty

/-- The length of an axis, whatever its members hold. -/
def extent (t : Topology) : Axis → Nat
  | .phase k => (t.phases k).length
  | .stream => t.streams.length
  | .reaction => t.reactions.length
  | .species => t.species.length

def extents (t : Topology) (s : Shape) : List Nat :=
  s.axes.map t.extent

/-- The positions of the species that a reaction involves. -/
def participants (t : Topology) (r : Reaction) : List Nat :=
  r.participants.filterMap fun p => t.species.idxOf? p.1

end Topology

end Kinetics

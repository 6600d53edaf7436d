import Kinetics.Dict
import Kinetics.Fault

/-!
# Kinetics.Space.Shape

The combinations of dimensions that variables can have, and the axes of an array over each. Axes
come in the order phase, stream, reaction, species.
-/

namespace Kinetics

inductive Axis where
  | phase (kind : Phase)
  | stream
  | reaction
  | species
  deriving DecidableEq

inductive Shape where
  | scalar
  | species
  | stream
  | reaction
  | streamSpecies
  | reactionSpecies
  | streamReaction
  | streamReactionSpecies
  | phase (kind : Phase)
  | phaseSpecies (kind : Phase)
  | phaseStream (kind : Phase)
  | phaseStreamSpecies (kind : Phase)
  deriving DecidableEq

namespace Shape

/-- The shape for a set of dimensions. Both phases together have none, nor has a phase together
with reactions. -/
def ofDimensions (ds : OrderedSet Dimension) : Except Fault Shape :=
  let has := Dict.contains ds
  match has .gas, has .solid, has .stream, has .reaction, has .species with
  | false, false, false, false, false => .ok .scalar
  | false, false, false, false, true => .ok .species
  | false, false, true, false, false => .ok .stream
  | false, false, false, true, false => .ok .reaction
  | false, false, true, false, true => .ok .streamSpecies
  | false, false, false, true, true => .ok .reactionSpecies
  | false, false, true, true, false => .ok .streamReaction
  | false, false, true, true, true => .ok .streamReactionSpecies
  | true, false, false, false, false => .ok (.phase .gas)
  | false, true, false, false, false => .ok (.phase .solid)
  | true, false, false, false, true => .ok (.phaseSpecies .gas)
  | false, true, false, false, true => .ok (.phaseSpecies .solid)
  | true, false, true, false, false => .ok (.phaseStream .gas)
  | false, true, true, false, false => .ok (.phaseStream .solid)
  | true, false, true, false, true => .ok (.phaseStreamSpecies .gas)
  | false, true, true, false, true => .ok (.phaseStreamSpecies .solid)
  | _, _, _, _, _ => .error (.noLayout ds.toList)

def axes : Shape → List Axis
  | scalar => []
  | species => [.species]
  | stream => [.stream]
  | reaction => [.reaction]
  | streamSpecies => [.stream, .species]
  | reactionSpecies => [.reaction, .species]
  | streamReaction => [.stream, .reaction]
  | streamReactionSpecies => [.stream, .reaction, .species]
  | phase k => [.phase k]
  | phaseSpecies k => [.phase k, .species]
  | phaseStream k => [.phase k, .stream]
  | phaseStreamSpecies k => [.phase k, .stream, .species]

def isScalar (s : Shape) : Bool :=
  s == .scalar

def phase? : Shape → Option Phase
  | phase k => some k
  | phaseSpecies k => some k
  | phaseStream k => some k
  | phaseStreamSpecies k => some k
  | _ => none

def overReactions (s : Shape) : Bool :=
  s.axes.contains .reaction

end Shape

end Kinetics

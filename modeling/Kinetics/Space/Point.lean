import Kinetics.Space.Topology

/-!
# Kinetics.Space.Point

Points of the index space. `points` lists the points of a shape that a plant has: a stream or
phase carries the species it holds, a reaction the species it involves. A point has an offset in a
dense array of its shape, row by row, and an index that names it.
-/

namespace Kinetics

/-- A position on some of the axes. -/
structure Point where
  phase : Option (Phase × Nat)
  stream : Option Nat
  reaction : Option Nat
  species : Option Nat
  deriving DecidableEq

namespace Point

def origin : Point :=
  ⟨none, none, none, none⟩

/-- The position on an axis; one phase has no position on the axis of the other. -/
def coordinate (p : Point) : Axis → Option Nat
  | .phase k =>
    match p.phase with
    | some (kind, i) => if kind = k then some i else none
    | none => none
  | .stream => p.stream
  | .reaction => p.reaction
  | .species => p.species

end Point

namespace Topology

/-- The points of a shape, in ascending order of the coordinates. -/
def points (t : Topology) : Shape → List Point
  | .scalar => [.origin]
  | .species => (List.range t.species.length).map fun i => ⟨none, none, none, some i⟩
  | .stream => (List.range t.streams.length).map fun i => ⟨none, some i, none, none⟩
  | .reaction => (List.range t.reactions.length).map fun i => ⟨none, none, some i, none⟩
  | .streamSpecies =>
    t.streams.zipIdx.flatMap fun (g, i) =>
      g.species.map fun j => ⟨none, some i, none, some j⟩
  | .reactionSpecies =>
    t.reactions.zipIdx.flatMap fun (r, i) =>
      (t.participants r).map fun j => ⟨none, none, some i, some j⟩
  | .streamReaction =>
    (List.range t.streams.length).flatMap fun i =>
      (List.range t.reactions.length).map fun j => ⟨none, some i, some j, none⟩
  | .streamReactionSpecies =>
    t.streams.zipIdx.flatMap fun (g, i) =>
      t.reactions.zipIdx.flatMap fun (r, j) =>
        ((t.participants r).filter g.species.contains).map fun k => ⟨none, some i, some j, some k⟩
  | .phase k => (List.range (t.phases k).length).map fun i => ⟨some (k, i), none, none, none⟩
  | .phaseSpecies k =>
    (t.phases k).zipIdx.flatMap fun (g, i) =>
      g.species.map fun j => ⟨some (k, i), none, none, some j⟩
  | .phaseStream k =>
    (List.range (t.phases k).length).flatMap fun i =>
      (List.range t.streams.length).map fun j => ⟨some (k, i), some j, none, none⟩
  | .phaseStreamSpecies k =>
    (t.phases k).zipIdx.flatMap fun (g, i) =>
      t.streams.zipIdx.flatMap fun (h, j) =>
        (g.species.filter h.species.contains).map fun l => ⟨some (k, i), some j, none, some l⟩

/-- The index that names a point of a variable. -/
def indexAt (t : Topology) (name : String) (p : Point) : ParameterIndex where
  name := name
  phase := p.phase.bind fun q => (t.phases q.1)[q.2]?.map Group.name
  stream := p.stream.bind fun i => t.streams[i]?.map Group.name
  reaction := p.reaction.bind fun i => t.reactions[i]?.map Reaction.text
  species := p.species.bind fun i => t.species[i]?

/-- The offset row by row over a list of axes. -/
def offsetOver (t : Topology) (p : Point) (axes : List Axis) : Nat :=
  axes.foldl (fun offset a => offset * t.extent a + (p.coordinate a).getD 0) 0

/-- The position of a point in a dense array of a shape. -/
def offsetAt (t : Topology) (s : Shape) (p : Point) : Nat :=
  t.offsetOver p s.axes

end Topology

end Kinetics

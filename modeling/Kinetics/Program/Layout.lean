import Kinetics.Program.Binding

/-!
# Kinetics.Program.Layout

The flat vector of all states. Every state has a block of it, one after the other, row by row. The
main state of a boundary value problem is joint: its block holds the fluxes too, appended to the
states along the last axis.
-/

namespace Kinetics

namespace Program

/-- What the variable, symbol, name or law of a flux has behind that of its state. -/
def fluxSuffix : String :=
  "_Flux"

structure VectorBlock where
  variableName : String
  law : String
  /-- the name in the program -/
  name : String
  shape : Shape
  extents : List Nat
  joint : Bool
  offset : Nat
  deriving DecidableEq

namespace VectorBlock

/-- The number of states in the block. -/
def size (s : VectorBlock) : Nat :=
  s.extents.foldl (· * ·) 1

/-- The length of the block. -/
def length (s : VectorBlock) : Nat :=
  if s.joint then 2 * s.size else s.size

/-- Doubles the last of a list of extents. -/
def doubleLast : List Nat → List Nat
  | [] => []
  | [n] => [2 * n]
  | n :: ns => n :: doubleLast ns

/-- The extents of the block as it is stored. -/
def blockExtents (s : VectorBlock) : List Nat :=
  if s.joint then doubleLast s.extents else s.extents

/-- The position of a point's state in the flat vector, and of its flux if there is one. -/
def cells (s : VectorBlock) (t : Topology) (p : Point) : Nat × Option Nat :=
  match s.shape.axes.getLast? with
  | none => (s.offset, if s.joint then some (s.offset + 1) else none)
  | some last =>
    let row := t.offsetOver p s.shape.axes.dropLast
    let n := t.extent last
    let i := (p.coordinate last).getD 0
    if s.joint then
      let position := s.offset + row * 2 * n + i
      (position, some (position + n))
    else (s.offset + row * n + i, none)

/-- The block of a state at an offset. -/
def ofBlock (t : Topology) (b : Binding) (joint : Bool) (offset : Nat) (s : StateEquation) :
    VectorBlock :=
  ⟨s.name, s.law, b.name, b.shape, t.extents b.shape, joint, offset⟩

/-- Binds the flux of a state. -/
def bindFlux (n : Names) (s : StateEquation) : Except Fault Names :=
  match n.symbolOf s.name with
  | .error e => .error e
  | .ok symbol =>
    match n.entryOf s.name with
    | .error e => .error e
    | .ok b =>
      n.bind (symbol ++ fluxSuffix) (s.name ++ fluxSuffix) ⟨b.name ++ fluxSuffix, b.shape⟩

/-- Lays out a list of states from an offset on; only the first one can be joint. -/
def layAll (t : Topology) (n : Names) (joint : Bool) (offset : Nat) :
    List StateEquation → Except Fault (Names × List VectorBlock)
  | [] => .ok (n, [])
  | s :: ss =>
    match n.entryOf s.name with
    | .error e => .error e
    | .ok b =>
      let block := ofBlock t b joint offset s
      match if joint then bindFlux n s else .ok n with
      | .error e => .error e
      | .ok n =>
        match layAll t n false (offset + block.length) ss with
        | .error e => .error e
        | .ok (n, blocks) => .ok (n, block :: blocks)

end VectorBlock

end Program

end Kinetics

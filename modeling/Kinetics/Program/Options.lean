import Kinetics.Json.Record

/-!
# Kinetics.Program.Options

The settings of the solver in a program, and their JSON form. Every field may be absent, and then
has its default; an absent key of the independent variable is written as null.
-/

namespace Kinetics

structure SolverOptions where
  method : String
  relativeTolerance : Float
  absoluteTolerance : Float
  /-- mesh points and tolerance of a boundary value problem -/
  meshPoints : UInt64
  boundaryTolerance : Float
  /-- the name that results list the independent variable under, if not its own -/
  independentKey : Option String

namespace SolverOptions

open Json

def standard : SolverOptions :=
  ⟨"LSODA", 1e-6, 1e-9, 50, 1e-3, none⟩

def fieldNames : List String :=
  ["method", "rtol", "atol", "bvp_mesh_points", "bvp_tol", "independent_key"]

def toJson (o : SolverOptions) : Json :=
  record
    [("method", ofString o.method), ("rtol", ofFloat o.relativeTolerance),
      ("atol", ofFloat o.absoluteTolerance), ("bvp_mesh_points", ofNat o.meshPoints.toNat),
      ("bvp_tol", ofFloat o.boundaryTolerance),
      ("independent_key", ofOption ofString o.independentKey)]

def ofJson? (j : Json) : Option SolverOptions :=
  match fields? fieldNames j with
  | some [method, relative, absolute, mesh, boundary, key] =>
    match defaulted standard.method asText method,
      defaulted standard.relativeTolerance asFloat relative,
      defaulted standard.absoluteTolerance asFloat absolute,
      defaulted standard.meshPoints asWord mesh,
      defaulted standard.boundaryTolerance asFloat boundary,
      defaulted none (nullable asText) key with
    | some m, some r, some a, some n, some b, some k => some ⟨m, r, a, n, b, k⟩
    | _, _, _, _, _, _ => none
  | _ => none

end SolverOptions

end Kinetics

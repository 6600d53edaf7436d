import Kinetics.Dict
import Kinetics.Fault

/-!
# Kinetics.Model.Order

Names in an order in which each comes after those it depends on. The search goes depth first along
the dependencies of each name; meeting a name again that is still being worked on is a cycle.
-/

namespace Kinetics

namespace Order

/-- The names with dependencies of their own that are not being worked on. -/
def freeCount (deps : Dict String NameSet) (path : List String) : Nat :=
  deps.keys.countP fun k => !path.contains k

theorem freeCount_cons {deps : Dict String NameSet} {path : List String} {name : String}
    {ds : NameSet} (h : deps.find? name = some ds) (hp : path.contains name = false) :
    freeCount deps (name :: path) < freeCount deps path := by
  refine countP_lt (Dict.mem_keys_of_find? h) (by rw [hp]; rfl) (by simp) fun y hy => ?_
  simp only [List.contains_cons, Bool.not_or, Bool.and_eq_true] at hy
  exact hy.2

/-- The fault of meeting a name that is being worked on, the last one first. -/
def cycle (path : List String) (name : String) : Fault :=
  match path with
  | [] => .ownDependency name
  | top :: _ => if name = top then .ownDependency name else .mutualDependency top name

/-- Adds a name to an order after its dependencies, which are listed, unless it is there already. -/
def visit (deps : Dict String NameSet) (path order : List String) (name : String) :
    Except Fault (List String) :=
  if _hp : path.contains name then .error (cycle path name)
  else if order.contains name then .ok order
  else
    match _hd : deps.find? name with
    | none => .error (.unlisted name)
    | some ds =>
      match ds.toList.foldlM (fun order d => visit deps (name :: path) order d) order with
      | .error e => .error e
      | .ok order => .ok (order ++ [name])
termination_by freeCount deps path
decreasing_by exact freeCount_cons _hd (by simpa using _hp)

/-- All names of a map of dependencies, in the order of the map as far as dependencies allow. -/
def ofDependencies (deps : Dict String NameSet) : Except Fault (List String) :=
  deps.keys.foldlM (visit deps []) []

end Order

end Kinetics

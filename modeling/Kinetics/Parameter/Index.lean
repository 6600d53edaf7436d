/-!
# Kinetics.Parameter.Index

The address of one scalar of the parameter table, and of one series of a simulation result: the
name of a variable together with at most one phase, stream, reaction and species. Addresses are
ordered by name, phase, stream, reaction and species, an absent part before every present one.
-/

namespace Kinetics

structure ParameterIndex where
  name : String
  phase : Option String
  stream : Option String
  reaction : Option String
  species : Option String
  deriving DecidableEq

namespace ParameterIndex

def scalar (name : String) : ParameterIndex :=
  ⟨name, none, none, none, none⟩

def part : Option String → String
  | some s => s
  | none => "-"

/-- The five parts in parentheses, a dash for an absent one. -/
def text (i : ParameterIndex) : String :=
  "(" ++ i.name ++ ", " ++ part i.phase ++ ", " ++ part i.stream ++ ", " ++ part i.reaction ++
    ", " ++ part i.species ++ ")"

def order : ParameterIndex → ParameterIndex → Ordering :=
  compareLex (compareOn name) <|
  compareLex (compareOn phase) <|
  compareLex (compareOn stream) <|
  compareLex (compareOn reaction) (compareOn species)

instance : Ord ParameterIndex := ⟨order⟩

instance : Std.TransCmp order := by
  unfold order
  infer_instance

instance : Std.TransOrd ParameterIndex :=
  inferInstanceAs (Std.TransCmp order)

theorem eq_of_order {a b : ParameterIndex} (h : order a b = .eq) : a = b := by
  simp only [order, compareLex_eq_eq, compareOn, Std.LawfulEqCmp.compare_eq_iff_eq] at h
  cases a
  cases b
  simp_all

instance : Std.LawfulEqOrd ParameterIndex where
  eq_of_compare h := eq_of_order h

end ParameterIndex

end Kinetics

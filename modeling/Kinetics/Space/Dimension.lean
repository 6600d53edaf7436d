/-!
# Kinetics.Space.Dimension

The dimensions a variable can range over and the two kinds of phase. Dimensions have a fixed
order, in which sets of them are listed.
-/

namespace Kinetics

inductive Dimension where
  | species
  | reaction
  | stream
  | gas
  | solid
  deriving DecidableEq

inductive Phase where
  | gas
  | solid
  deriving DecidableEq

namespace Dimension

/-- All dimensions in their order. -/
def all : List Dimension :=
  [.species, .reaction, .stream, .gas, .solid]

def rank : Dimension → Nat
  | .species => 0
  | .reaction => 1
  | .stream => 2
  | .gas => 3
  | .solid => 4

theorem rank_injective {a b : Dimension} (h : a.rank = b.rank) : a = b := by
  cases a <;> cases b <;> first | rfl | cases h

def word : Dimension → String
  | .species => "Species"
  | .reaction => "Reaction"
  | .stream => "Stream"
  | .gas => "Gas"
  | .solid => "Solid"

instance : Ord Dimension := ⟨compareOn rank⟩

instance : Std.TransOrd Dimension :=
  inferInstanceAs (Std.TransCmp (compareOn rank))

instance : Std.LawfulEqOrd Dimension where
  eq_of_compare h := rank_injective (Nat.compare_eq_eq.1 h)

end Dimension

def Phase.word : Phase → String
  | .gas => "gas"
  | .solid => "solid"

end Kinetics

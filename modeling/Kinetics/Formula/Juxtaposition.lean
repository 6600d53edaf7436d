import Kinetics.Formula.Node

/-!
# Kinetics.Formula.Juxtaposition

Written notation omits the sign between factors. Here it is put back: between two neighbours of a
row, the first of which ends a term and the second of which starts one. Spaces are dropped, and
unknown elements do not separate factors. The arguments of a call form are no factors, except the
operands of sums and products.
-/

namespace Kinetics

namespace Formula

namespace Node

def closesFactor : Node → Bool
  | .operator s => s == ")" || s == "]"
  | _ => true

/-- An index construction attaches to the term before it and starts none. -/
def opensFactor (n : Node) : Bool :=
  match n with
  | .operator s => s == "("
  | .row children => headKeyword? children != some .index
  | .unknown _ => false
  | _ => true

/-- Puts signs of multiplication into a list of siblings, of which `before` is the last one that
is not unknown. -/
def joinAfter (before : Option Node) : List Node → List Node
  | [] => []
  | n :: ns =>
    let rest := n :: joinAfter (if n.isUnknown then before else some n) ns
    if before.any closesFactor && opensFactor n then .operator "*" :: rest else rest

def joinFactors (ns : List Node) : List Node :=
  joinAfter none ns

/-- The children of a row with the given keyword, with signs where they are factors. -/
def joinRow (keyword : Option Keyword) (children : List Node) : List Node :=
  match keyword, children with
  | none, ns => joinFactors ns
  | some .sum, n :: ns => n :: joinFactors ns
  | some .product, n :: ns => n :: joinFactors ns
  | _, ns => ns

mutual

/-- A formula with its signs of multiplication written. -/
def explicit : Node → Node
  | .row children => .row (joinRow (headKeyword? children) (explicitAll children))
  | .fenced opener closer children => .fenced opener closer (explicitAll children)
  | .fraction a b => .fraction (explicit a) (explicit b)
  | .sup a b => .sup (explicit a) (explicit b)
  | .root children => .root (explicitAll children)
  | .sub a b => .sub a b
  | .identifier s => .identifier s
  | .number s => .number s
  | .operator s => .operator s
  | .space s => .space s
  | .text s => .text s
  | .unknown s => .unknown s

/-- Siblings with their signs written inside, without the spaces. -/
def explicitAll : List Node → List Node
  | [] => []
  | n :: ns => if n.isSpace then explicitAll ns else explicit n :: explicitAll ns

end

theorem explicitAll_append (ns ms : List Node) :
    explicitAll (ns ++ ms) = explicitAll ns ++ explicitAll ms := by
  induction ns with
  | nil => rfl
  | cons x xs ih =>
    simp only [List.cons_append, explicitAll, ih]
    split <;> rfl

theorem explicitAll_cons {n : Node} {ns : List Node} (h : n.isSpace = false) :
    explicitAll (n :: ns) = explicit n :: explicitAll ns := by
  simp [explicitAll, h]

theorem headKeyword?_explicitAll {ns : List Node} (h : ∀ n ∈ ns, n.isSpace = false) :
    headKeyword? (explicitAll ns) = headKeyword? ns := by
  cases ns with
  | nil => rfl
  | cons x xs =>
    rw [explicitAll_cons (h x (by simp))]
    cases x <;> simp [explicit, headKeyword?]

end Node

end Formula

end Kinetics

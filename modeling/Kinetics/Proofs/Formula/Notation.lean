import Kinetics.Formula.Node
import Kinetics.Proofs.Arithmetic.Grammar

/-!
# Kinetics.Proofs.Formula.Notation

Arithmetic as it is written by hand, and the presentation trees that write it. Factors stand side
by side without a sign between them; a sum, a difference or a negation that is a factor, a right
operand or under a minus stands in parentheses. `Notates` leaves open what an editor leaves open:
whether a part that needs no parentheses stands in a row of its own.
-/

namespace Kinetics

namespace Arithmetic

open Formula

def isVariable (s : String) : Bool :=
  isName s.toList && s != "π"

inductive Expr where
  | name (s : String) (legal : isVariable s = true)
  | numeral (n : Numeral)
  | add (a b : Expr)
  | sub (a b : Expr)
  | neg (a : Expr)
  | mul (a b : Expr)
  | div (a b : Expr)
  | pow (a b : Expr)
  | sqrt (a : Expr)
  | exp (a : Expr)
  | max (a b : Expr)
  | sum (a : Expr)
  | product (a : Expr)

namespace Expr

/-- The number that an expression denotes; a root is a power of one half. -/
def value {K : Type} [Field K] (m : Meaning K) : Expr → K
  | .name s _ => m.name s
  | .numeral n => n.value
  | .add a b => a.value m + b.value m
  | .sub a b => a.value m - b.value m
  | .neg a => -a.value m
  | .mul a b => a.value m * b.value m
  | .div a b => a.value m / b.value m
  | .pow a b => m.power (a.value m) (b.value m)
  | .sqrt a => m.power (a.value m) Numeral.half.value
  | .exp a => m.call .exp (a.value m)
  | .max a b => m.maximum (a.value m) (b.value m)
  | .sum a => m.call .sum (a.value m)
  | .product a => m.call .product (a.value m)

/-- The variables of an expression, each as often as it is written. -/
def symbols : Expr → List String
  | .name s _ => [s]
  | .numeral _ => []
  | .add a b => a.symbols ++ b.symbols
  | .sub a b => a.symbols ++ b.symbols
  | .neg a => a.symbols
  | .mul a b => a.symbols ++ b.symbols
  | .div a b => a.symbols ++ b.symbols
  | .pow a b => a.symbols ++ b.symbols
  | .sqrt a => a.symbols
  | .exp a => a.symbols
  | .max a b => a.symbols ++ b.symbols
  | .sum a => a.symbols
  | .product a => a.symbols

def isLoose : Expr → Bool
  | .add _ _ => true
  | .sub _ _ => true
  | .neg _ => true
  | _ => false

def operand (a : Expr) (siblings : List Node) : List Node :=
  if a.isLoose then [Node.group siblings] else siblings

end Expr

/-- The siblings write the expression. -/
inductive Notates : Expr → List Node → Prop where
  | name {s : String} (legal : isVariable s = true) :
      Notates (.name s legal) [.identifier s]
  | numeral (n : Numeral) : Notates (.numeral n) [.number (String.ofList n.text)]
  | row {a : Expr} {ns : List Node} : Notates a ns → Notates a [.row ns]
  | add {a b : Expr} {ns ms : List Node} : Notates a ns → Notates b ms →
      Notates (.add a b) (ns ++ .operator "+" :: b.operand ms)
  | sub {a b : Expr} {ns ms : List Node} : Notates a ns → Notates b ms →
      Notates (.sub a b) (ns ++ .operator "-" :: b.operand ms)
  | neg {a : Expr} {ns : List Node} : Notates a ns →
      Notates (.neg a) (.operator "-" :: a.operand ns)
  | mul {a b : Expr} {ns ms : List Node} : Notates a ns → Notates b ms →
      Notates (.mul a b) (a.operand ns ++ b.operand ms)
  | div {a b : Expr} {n k : Node} : Notates a [n] → Notates b [k] →
      Notates (.div a b) [.fraction n k]
  | pow {a b : Expr} {n k : Node} : Notates a [n] → Notates b [k] →
      Notates (.pow a b) [.sup n k]
  | sqrt {a : Expr} {n : Node} : Notates a [n] → Notates (.sqrt a) [.root [n]]
  | exp {a : Expr} {n : Node} : Notates a [n] →
      Notates (.exp a) [.row [.operator "exp", n]]
  | max {a b : Expr} {n k : Node} : Notates a [n] → Notates b [k] →
      Notates (.max a b) [.row [.operator "max", n, k]]
  | sum {a : Expr} {n : Node} : Notates a [n] →
      Notates (.sum a) [.row [.operator "∑", n]]
  | product {a : Expr} {n : Node} : Notates a [n] →
      Notates (.product a) [.row [.operator "∏", n]]

namespace Expr

/-- The siblings that write an expression without rows that nothing asks for. -/
def siblings : Expr → List Node
  | .name s _ => [.identifier s]
  | .numeral n => [.number (String.ofList n.text)]
  | .add a b => a.siblings ++ .operator "+" :: b.operand b.siblings
  | .sub a b => a.siblings ++ .operator "-" :: b.operand b.siblings
  | .neg a => .operator "-" :: a.operand a.siblings
  | .mul a b => a.operand a.siblings ++ b.operand b.siblings
  | .div a b => [.fraction (.row a.siblings) (.row b.siblings)]
  | .pow a b => [.sup (.row a.siblings) (.row b.siblings)]
  | .sqrt a => [.root [.row a.siblings]]
  | .exp a => [.row [.operator "exp", .row a.siblings]]
  | .max a b => [.row [.operator "max", .row a.siblings, .row b.siblings]]
  | .sum a => [.row [.operator "∑", .row a.siblings]]
  | .product a => [.row [.operator "∏", .row a.siblings]]

def tree (e : Expr) : Node :=
  .row e.siblings

theorem notates_siblings (e : Expr) : Notates e e.siblings := by
  induction e with
  | name s legal => exact .name legal
  | numeral n => exact .numeral n
  | add a b iha ihb => exact .add iha ihb
  | sub a b iha ihb => exact .sub iha ihb
  | neg a ih => exact .neg ih
  | mul a b iha ihb => exact .mul iha ihb
  | div a b iha ihb => exact .div (.row iha) (.row ihb)
  | pow a b iha ihb => exact .pow (.row iha) (.row ihb)
  | sqrt a ih => exact .sqrt (.row ih)
  | exp a ih => exact .exp (.row ih)
  | max a b iha ihb => exact .max (.row iha) (.row ihb)
  | sum a ih => exact .sum (.row ih)
  | product a ih => exact .product (.row ih)

end Expr

end Arithmetic

end Kinetics

import Kinetics.Text.Digit

/-!
# Kinetics.Reaction.Coefficient

Stoichiometric coefficients: whole numbers as a binary floating point type of 53 bits holds them.
Below `2 ^ 53` they are exact, beyond that a sum is rounded to the nearest such number, ties to
even, and from `2 ^ 1024` on it is infinite. Nought has a sign.
-/

namespace Kinetics

inductive Coefficient where
  | whole (negative : Bool) (magnitude : Nat)
  | infinite (negative : Bool)
  /-- the sum of opposite infinities -/
  | undefined
  deriving DecidableEq

namespace Coefficient

/-- The nearest number with at most 53 significant bits. -/
def round (n : Nat) : Nat :=
  if n < Nat.pow 2 53 then n
  else
    let unit := Nat.pow 2 (n.log2 - 52)
    let q := n / unit
    let twice := 2 * (n % unit)
    if unit < twice || (twice == unit && q % 2 == 1) then (q + 1) * unit else q * unit

theorem round_of_lt {n : Nat} (h : n < Nat.pow 2 53) : round n = n := by
  rw [round, if_pos h]

def ofMagnitude (negative : Bool) (n : Nat) : Coefficient :=
  if round n < Nat.pow 2 1024 then .whole negative (round n) else .infinite negative

/-- The coefficient that a run of ASCII digits writes. -/
def ofDigits (cs : List Char) : Coefficient :=
  ofMagnitude false (Text.digitsValue cs)

def one : Coefficient :=
  .whole false 1

def neg : Coefficient → Coefficient
  | .whole s n => .whole (!s) n
  | .infinite s => .infinite (!s)
  | .undefined => .undefined

/-- The exact value of a whole coefficient. -/
def signed (negative : Bool) (n : Nat) : Int :=
  if negative then -n else n

/-- A sum of nought is positive unless both terms are negative. -/
def add : Coefficient → Coefficient → Coefficient
  | .whole s m, .whole t n =>
    let sum := signed s m + signed t n
    if sum = 0 then .whole (s && t) 0 else ofMagnitude (sum < 0) sum.natAbs
  | .whole _ _, c => c
  | c, .whole _ _ => c
  | .infinite s, .infinite t => if s = t then .infinite s else .undefined
  | .undefined, _ => .undefined
  | _, .undefined => .undefined

/-- The binary number of a coefficient. -/
def toFloat : Coefficient → Float
  | .whole false n => Float.ofNat n
  | .whole true n => -Float.ofNat n
  | .infinite false => 1 / 0
  | .infinite true => -1 / 0
  | .undefined => 0 / 0

end Coefficient

end Kinetics

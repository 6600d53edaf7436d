/-!
# Kinetics.Decimal.Shortest

The shortest decimal that reads back as a binary number. A positive binary number `m * 2 ^ q`
stands for an interval of reals that round to it; its ends belong to it when `m` is even. The
multiples of a power of ten form a grid; the coarsest grid with a point in the interval gives the
fewest digits, and of two points on it the nearer one is taken. Only natural numbers are used.
-/

namespace Kinetics

namespace Decimal

/-- Which of two equally near decimals is taken. -/
inductive Tie where
  | up
  | even

/-- The reals that round to a number, over one denominator. -/
structure Interval where
  low : Nat
  value : Nat
  high : Nat
  denominator : Nat
  closed : Bool

namespace Interval

/-- The interval of `m * 2 ^ q`. Below a power of two the neighbour is only half as far away. -/
def ofBinary (m : Nat) (q : Int) (narrow : Bool) : Interval :=
  let low := 4 * m - (if narrow then 1 else 2)
  let high := 4 * m + 2
  if 2 ≤ q then
    let s := Nat.pow 2 (q - 2).toNat
    ⟨low * s, 4 * m * s, high * s, 1, m % 2 = 0⟩
  else ⟨low, 4 * m, high, Nat.pow 2 (2 - q).toNat, m % 2 = 0⟩

/-- The same interval with the power of ten as the unit. -/
def inUnits (i : Interval) (k : Int) : Interval :=
  if 0 ≤ k then { i with denominator := i.denominator * Nat.pow 10 k.toNat }
  else
    let s := Nat.pow 10 (-k).toNat
    { i with low := i.low * s, value := i.value * s, high := i.high * s }

/-- Whether a whole number lies in the interval. -/
def holds (i : Interval) (n : Nat) : Bool :=
  let p := n * i.denominator
  (i.low < p || (i.closed && i.low == p)) && (p < i.high || (i.closed && p == i.high))

/-- The whole number in the interval that is nearest to the value, if there is one. -/
def nearestWhole (i : Interval) (tie : Tie) : Option Nat :=
  let n := i.value / i.denominator
  match i.holds n, i.holds (n + 1) with
  | false, false => none
  | true, false => some n
  | false, true => some (n + 1)
  | true, true =>
    let twice := 2 * (i.value % i.denominator)
    if twice < i.denominator then some n
    else if i.denominator < twice then some (n + 1)
    else
      match tie with
      | .up => some (n + 1)
      | .even => some (if n % 2 = 0 then n else n + 1)

theorem holds_of_nearestWhole {i : Interval} {tie : Tie} {n : Nat}
    (h : i.nearestWhole tie = some n) : i.holds n = true := by
  cases h0 : i.holds (i.value / i.denominator) <;>
    cases h1 : i.holds (i.value / i.denominator + 1) <;>
    simp only [nearestWhole, h0, h1] at h
  · cases h
  · cases h; exact h1
  · cases h; exact h0
  · split at h
    · cases h; exact h0
    · split at h
      · cases h; exact h1
      · cases tie
        · cases h; exact h1
        · cases h; split <;> assumption

/-- Tries ever finer grids. -/
def search (i : Interval) (tie : Tie) : Nat → Int → Option (Nat × Int)
  | 0, _ => none
  | fuel + 1, k =>
    match (i.inUnits k).nearestWhole tie with
    | some n => some (n, k)
    | none => search i tie fuel (k - 1)

end Interval

/-- Takes the noughts off the end of a whole number, counting them. -/
def dropNoughts : Nat → Nat → Int → Nat × Int
  | 0, n, k => (n, k)
  | fuel + 1, n, k => if n % 10 = 0 then dropNoughts fuel (n / 10) (k + 1) else (n, k)

/-- The exact decimal of `m * 2 ^ q`. -/
def exact (m : Nat) (q : Int) : Nat × Int :=
  if 0 ≤ q then (m * Nat.pow 2 q.toNat, 0) else (m * Nat.pow 5 (-q).toNat, q)

/-- An exponent `k` with `m * 2 ^ q < 10 ^ k`; 0.30103 is a little more than the decimal logarithm
of two. -/
def upperExponent (m : Nat) (q : Int) : Int :=
  Int.fdiv ((q + m.log2 + 1) * 30103) 100000 + 1

/-- A whole number without noughts at its end and an exponent of ten, for `m * 2 ^ q`. Twenty grids
are enough, because seventeen digits always tell two binary numbers apart. -/
def shortest (tie : Tie) (m : Nat) (q : Int) (narrow : Bool) : Nat × Int :=
  let i := Interval.ofBinary m q narrow
  let found := (i.search tie 20 (upperExponent m q)).getD (exact m q)
  dropNoughts 400 found.1 found.2

end Decimal

end Kinetics

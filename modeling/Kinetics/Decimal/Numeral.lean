import Kinetics.Text.Digit

/-!
# Kinetics.Decimal.Numeral

Written decimal numbers and the binary number each stands for. A numeral keeps its digits as
written. Its significand is the longest run of its digits that fits into 64 bits; whole digits
after that only raise the exponent and fraction digits after that count for nothing. The
significand is then converted and multiplied or divided by a power of ten, once for exponents of
common size, so the result may differ from the nearest binary number in its last place.
-/

namespace Kinetics

namespace Decimal

open Text

structure Numeral where
  negative : Bool
  whole : List Char
  fraction : List Char
  exponent : Option Int
  deriving DecidableEq

namespace Numeral

/-- A whole number as a numeral. -/
def ofNat (n : Nat) : Numeral :=
  ⟨false, natDigits n, [], none⟩

/-- Neither a fraction nor an exponent is written. -/
def isWhole (n : Numeral) : Bool :=
  n.fraction.isEmpty && n.exponent.isNone

/-- The whole number from nought to the largest of 64 bits that a numeral without sign writes. -/
def toWord? (n : Numeral) : Option UInt64 :=
  if n.isWhole && !n.negative && digitsValue n.whole < Nat.pow 2 64 then
    some (UInt64.ofNat (digitsValue n.whole))
  else none

/-- Adds a digit to a significand if the result fits into 64 bits. -/
def extend? (significand : Nat) (c : Char) : Option Nat :=
  let next := 10 * significand + (c.toNat - 48)
  if next < Nat.pow 2 64 then some next else none

/-- The significand of the whole digits and the number of digits left out. -/
def wholeSignificand (significand : Nat) : List Char → Nat × Nat
  | [] => (significand, 0)
  | c :: r =>
    match extend? significand c with
    | some next => wholeSignificand next r
    | none => (significand, r.length + 1)

/-- The significand with the fraction digits that fit, and their number. -/
def fractionSignificand (significand places : Nat) : List Char → Nat × Nat
  | [] => (significand, places)
  | c :: r =>
    match extend? significand c with
    | some next => fractionSignificand next (places + 1) r
    | none => (significand, places)

/-- The significand and the exponent of ten that a numeral stands for. -/
def parts (n : Numeral) : Nat × Int :=
  let w := wholeSignificand 0 n.whole
  let f := fractionSignificand w.1 0 n.fraction
  (f.1, (w.2 : Int) - f.2 + n.exponent.getD 0)

/-- The binary number nearest to a power of ten. -/
def powerOfTen (k : Nat) : Float :=
  Float.ofScientific 1 false k

/-- Multiplies by a power of ten, in steps of the largest one; nothing is returned beyond the
largest binary number. -/
def scale (x : Float) (k : Int) : Option Float :=
  if k.natAbs ≤ 308 then
    if 0 ≤ k then
      let y := x * powerOfTen k.toNat
      if y.isInf then none else some y
    else some (x / powerOfTen (-k).toNat)
  else if x == 0 then some x
  else if 0 ≤ k then none
  else scale (x / powerOfTen 308) (k + 308)
termination_by k.natAbs
decreasing_by omega

/-- The binary number of a numeral, unless it is too large. -/
def toFloat? (n : Numeral) : Option Float :=
  let p := n.parts
  match scale p.1.toUInt64.toFloat p.2 with
  | some x => some (if n.negative then -x else x)
  | none => none

def signText (negative : Bool) : List Char :=
  if negative then ['-'] else []

/-- The text of a numeral; an exponent that is not negative has a plus sign where asked for. -/
def text (plus : Bool) (n : Numeral) : List Char :=
  signText n.negative ++ n.whole ++
    (if n.fraction.isEmpty then [] else '.' :: n.fraction) ++
    match n.exponent with
    | none => []
    | some e =>
      if e < 0 then 'e' :: '-' :: natDigits e.natAbs
      else 'e' :: ((if plus then ['+'] else []) ++ natDigits e.natAbs)

end Numeral

end Decimal

end Kinetics

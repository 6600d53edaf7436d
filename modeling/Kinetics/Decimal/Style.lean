import Kinetics.Decimal.Numeral
import Kinetics.Decimal.Shortest

/-!
# Kinetics.Decimal.Style

How a binary number is written: its shortest decimal, positional within a range of exponents and
scientific outside it. A positional number always has a fraction, a scientific one only where it
has a second digit. Two styles are in use, one for programs and one for documents.
-/

namespace Kinetics

namespace Decimal

structure Style where
  /-- exponents of the first digit that are written positionally -/
  firstPlain : Int
  lastPlain : Int
  plusSign : Bool
  tie : Tie

/-- Programs: positional from 1e-4 up to below 1e16, no sign on a positive exponent. -/
def programStyle : Style :=
  ⟨-4, 15, false, .up⟩

/-- Documents: positional from 1e-5 up to below 1e16, a sign on every exponent. -/
def documentStyle : Style :=
  ⟨-5, 15, true, .even⟩

/-- A finite binary number as sign, whole number, exponent of two, and whether the number below it
is only half as far away as the one above; nothing for infinities and for what is no number. -/
def decode? (x : Float) : Option (Bool × Nat × Int × Bool) :=
  let bits := x.toBits.toNat
  let negative := bits / Nat.pow 2 63 = 1
  let biased := bits / Nat.pow 2 52 % Nat.pow 2 11
  let m := bits % Nat.pow 2 52
  if biased = 2047 then none
  else if biased = 0 then some (negative, m, -1074, false)
  else some (negative, m + Nat.pow 2 52, Int.ofNat biased - 1075, m == 0 && 1 < biased)

/-- Digits with the decimal point after the given number of them. -/
def positional (negative : Bool) (digits : List Char) (point : Int) : Numeral :=
  let zeros (n : Int) := List.replicate n.toNat '0'
  let orZero (cs : List Char) := if cs.isEmpty then ['0'] else cs
  if point ≤ 0 then ⟨negative, ['0'], orZero (zeros (-point) ++ digits), none⟩
  else
    let n := point.toNat
    ⟨negative, digits.take n ++ zeros (point - digits.length), orZero (digits.drop n), none⟩

def scientific (negative : Bool) (digits : List Char) (exponent : Int) : Numeral :=
  ⟨negative, digits.take 1, digits.drop 1, some exponent⟩

namespace Style

/-- The numeral of a finite number. -/
def numeral? (s : Style) (x : Float) : Option Numeral :=
  match decode? x with
  | none => none
  | some (negative, m, q, narrow) =>
    if m = 0 then some (positional negative ['0'] 1)
    else
      let d := shortest s.tie m q narrow
      let digits := Text.natDigits d.1
      let point := d.2 + digits.length
      if s.firstPlain ≤ point - 1 ∧ point - 1 ≤ s.lastPlain then
        some (positional negative digits point)
      else some (scientific negative digits (point - 1))

end Style

/-- A number in the style of programs, with the given words for what is not finite. -/
def programText (notANumber infinite negativeInfinite : String) (x : Float) : String :=
  match programStyle.numeral? x with
  | some n => String.ofList (n.text programStyle.plusSign)
  | none =>
    if x.isNaN then notANumber
    else if 0 < x then infinite
    else negativeInfinite

end Decimal

end Kinetics

import Kinetics.Proofs.Code.Bracket
import Kinetics.Text.Digit
import Mathlib.Algebra.Field.Defs
import Mathlib.Algebra.Field.Basic

/-!
# Kinetics.Proofs.Arithmetic.Grammar

Arithmetic in generated code. `Parses` is the grammar of the target language, Python, for the
operators that formulas use: sums and products group from the left, a sign binds looser than a
power on its right and tighter than a product, and a power groups from the right. `Tree.value` is
the number that a tree of operations denotes; powers and calls are left to an interpretation.

`Parses.times` and `Parses.negate` say that a product behind a product, or behind a sign, may stand
without parentheses: the grouping changes, the value does not.
-/

namespace Kinetics

namespace Arithmetic

open Code Text

def keywords : List (List Char) :=
  ["False", "None", "True", "and", "as", "assert", "async", "await", "break", "class", "continue",
    "def", "del", "elif", "else", "except", "finally", "for", "from", "global", "if", "import",
    "in", "is", "lambda", "nonlocal", "not", "or", "pass", "raise", "return", "try", "while",
    "with", "yield"].map String.toList

def isIdentifier : List Char → Bool
  | [] => false
  | c :: r => (c == '_' || isIdentifierStart c) && r.all isIdentifierContinue

/-- An identifier that may stand for a value. -/
def isName (cs : List Char) : Bool :=
  isIdentifier cs && !keywords.contains cs

/-- Digits that write a number, with a point in them or not: a point has a digit beside it, and no
number without a point starts with noughts unless it is nought. -/
def isPlain (whole : List Char) (point : Bool) (fraction : List Char) : Bool :=
  whole.all Char.isDigit && fraction.all Char.isDigit &&
    if point then !(whole.isEmpty && fraction.isEmpty)
    else
      fraction.isEmpty && !whole.isEmpty && (whole.head? != some '0' || whole.all (· == '0'))

/-- An unsigned decimal numeral, by its digits before and behind the point. -/
structure Numeral where
  whole : List Char
  point : Bool
  fraction : List Char
  plain : isPlain whole point fraction = true

namespace Numeral

def text (n : Numeral) : List Char :=
  n.whole ++ if n.point then '.' :: n.fraction else []

def ofDigits? (whole : List Char) (point : Bool) (fraction : List Char) : Option Numeral :=
  if h : isPlain whole point fraction = true then some ⟨whole, point, fraction, h⟩ else none

def ofText? (cs : List Char) : Option Numeral :=
  match cs.dropWhile Char.isDigit with
  | [] => ofDigits? (cs.takeWhile Char.isDigit) false []
  | '.' :: r => ofDigits? (cs.takeWhile Char.isDigit) true r
  | _ => none

def half : Numeral :=
  ⟨['0'], true, ['5'], rfl⟩

theorem ofDigits?_eq (n : Numeral) : ofDigits? n.whole n.point n.fraction = some n := by
  rw [ofDigits?, dif_pos n.plain]

theorem whole_digits (n : Numeral) : ∀ c ∈ n.whole, c.isDigit = true := by
  have h := n.plain
  simp only [isPlain, Bool.and_eq_true, List.all_eq_true] at h
  exact h.1.1

theorem fraction_digits (n : Numeral) : ∀ c ∈ n.fraction, c.isDigit = true := by
  have h := n.plain
  simp only [isPlain, Bool.and_eq_true, List.all_eq_true] at h
  exact h.1.2

theorem whole_only (n : Numeral) (h : n.point = false) : n.fraction = [] ∧ n.whole ≠ [] := by
  have hp := n.plain
  rw [isPlain, h] at hp
  simp only [Bool.false_eq_true, if_false, Bool.and_eq_true, Bool.not_eq_true',
    List.isEmpty_iff, List.isEmpty_eq_false_iff] at hp
  exact hp.2.1

theorem digits_around (n : Numeral) (h : n.point = true) (hw : n.whole = []) :
    n.fraction ≠ [] := by
  have hp := n.plain
  rw [isPlain, h, hw] at hp
  simp only [if_true, Bool.and_eq_true] at hp
  simpa using hp.2

theorem ofText?_text (n : Numeral) : ofText? n.text = some n := by
  have hs := ofDigits?_eq n
  simp only [text, ofText?]
  rw [List.takeWhile_append_of_pos n.whole_digits, List.dropWhile_append_of_pos n.whole_digits]
  cases hp : n.point with
  | false =>
    rw [hp, (n.whole_only hp).1] at hs
    simpa using hs
  | true =>
    rw [hp] at hs
    simpa using hs

end Numeral

inductive Sign where
  | plus
  | minus
  deriving DecidableEq

inductive Ratio where
  | times
  | per
  deriving DecidableEq

inductive Call where
  | exp
  | sum
  | product
  deriving DecidableEq

def Sign.token : Sign → Token
  | .plus => .operator ['+']
  | .minus => .operator ['-']

def Ratio.token : Ratio → Token
  | .times => .operator ['*']
  | .per => .operator ['/']

def powerToken : Token :=
  .operator ['*', '*']

def Call.word : Call → List Char
  | .exp => "np.exp".toList
  | .sum => "np.sum".toList
  | .product => "np.prod".toList

def maximumWord : List Char :=
  "np.maximum".toList

/-- The operations that a line of code says. -/
inductive Tree where
  | name (s : List Char)
  | numeral (n : Numeral)
  | negative (a : Tree)
  | additive (o : Sign) (a b : Tree)
  | multiplicative (o : Ratio) (a b : Tree)
  | power (a b : Tree)
  | call (f : Call) (a : Tree)
  | maximum (a b : Tree)

/-- What names, powers and calls mean. -/
structure Meaning (K : Type) where
  name : String → K
  power : K → K → K
  call : Call → K → K
  maximum : K → K → K

section Value

variable {K : Type} [Field K]

def Numeral.value (n : Numeral) : K :=
  (digitsValue (n.whole ++ n.fraction) : K) / 10 ^ n.fraction.length

def Sign.apply : Sign → K → K → K
  | .plus, x, y => x + y
  | .minus, x, y => x - y

def Ratio.apply : Ratio → K → K → K
  | .times, x, y => x * y
  | .per, x, y => x / y

def Tree.value (m : Meaning K) : Tree → K
  | .name s => m.name (String.ofList s)
  | .numeral n => n.value
  | .negative a => -a.value m
  | .additive o a b => o.apply (a.value m) (b.value m)
  | .multiplicative o a b => o.apply (a.value m) (b.value m)
  | .power a b => m.power (a.value m) (b.value m)
  | .call f a => m.call f (a.value m)
  | .maximum a b => m.maximum (a.value m) (b.value m)

theorem Ratio.mul_apply (o : Ratio) (x y z : K) : x * o.apply y z = o.apply (x * y) z := by
  cases o with
  | times => exact (mul_assoc x y z).symm
  | per => exact (mul_div_assoc x y z).symm

theorem Ratio.neg_apply (o : Ratio) (x y : K) : -o.apply x y = o.apply (-x) y := by
  cases o with
  | times => exact (neg_mul x y).symm
  | per => exact (neg_div y x).symm

end Value

/-- How tightly the operations of a line bind, the tightest first. -/
inductive Level where
  | atom
  | factor
  | term
  | sum
  deriving DecidableEq

def inBrackets (ts : List Token) : List Token :=
  .opening .round :: (ts ++ [.closing .round])

/-- The tokens say the operations of a tree, none of which binds looser than the level. -/
inductive Parses : Level → List Token → Tree → Prop where
  | name {s : List Char} : isName s = true → Parses .atom [.name s] (.name s)
  | numeral {s : List Char} {n : Numeral} :
      Numeral.ofText? s = some n → Parses .atom [.number s] (.numeral n)
  | group {ts : List Token} {a : Tree} : Parses .sum ts a → Parses .atom (inBrackets ts) a
  | call {ts : List Token} {a : Tree} (f : Call) :
      Parses .sum ts a → Parses .atom (.name f.word :: inBrackets ts) (.call f a)
  | maximum {ts us : List Token} {a b : Tree} :
      Parses .sum ts a → Parses .sum us b →
      Parses .atom (.name maximumWord :: inBrackets (ts ++ .comma :: us)) (.maximum a b)
  | atom {ts : List Token} {a : Tree} : Parses .atom ts a → Parses .factor ts a
  | power {ts us : List Token} {a b : Tree} :
      Parses .atom ts a → Parses .factor us b →
      Parses .factor (ts ++ powerToken :: us) (.power a b)
  | negative {ts : List Token} {a : Tree} :
      Parses .factor ts a → Parses .factor (Sign.minus.token :: ts) (.negative a)
  | factor {ts : List Token} {a : Tree} : Parses .factor ts a → Parses .term ts a
  | multiplicative {ts us : List Token} {a b : Tree} (o : Ratio) :
      Parses .term ts a → Parses .factor us b →
      Parses .term (ts ++ o.token :: us) (.multiplicative o a b)
  | term {ts : List Token} {a : Tree} : Parses .term ts a → Parses .sum ts a
  | additive {ts us : List Token} {a b : Tree} (o : Sign) :
      Parses .sum ts a → Parses .term us b →
      Parses .sum (ts ++ o.token :: us) (.additive o a b)

namespace Parses

variable {ts us : List Token} {a b : Tree}

theorem toSum {l : Level} (h : Parses l ts a) : Parses .sum ts a := by
  cases l with
  | atom => exact .term (.factor (.atom h))
  | factor => exact .term (.factor h)
  | term => exact .term h
  | sum => exact h

/-- A product behind a product: the left one is multiplied by the factors of the right one, one
after the other. -/
theorem times (ha : Parses .term ts a) (hb : Parses .term us b) :
    ∃ c, Parses .term (ts ++ Ratio.times.token :: us) c ∧
      ∀ (K : Type) [Field K] (m : Meaning K), c.value m = a.value m * b.value m := by
  generalize hl : Level.term = l at hb
  induction hb with
  | factor hf => exact ⟨_, .multiplicative .times ha hf, fun _ _ _ => rfl⟩
  | @multiplicative ws vs x y o _ hy ih =>
    obtain ⟨c, hc, hv⟩ := ih hl
    refine ⟨.multiplicative o c y, ?_, fun K _ m => ?_⟩
    · simpa using Parses.multiplicative o hc hy
    · simp [Tree.value, hv, Ratio.mul_apply]
  | _ => cases hl

theorem negate (hb : Parses .term us b) :
    ∃ c, Parses .term (Sign.minus.token :: us) c ∧
      ∀ (K : Type) [Field K] (m : Meaning K), c.value m = -b.value m := by
  generalize hl : Level.term = l at hb
  induction hb with
  | factor hf => exact ⟨_, .factor (.negative hf), fun _ _ _ => rfl⟩
  | @multiplicative ws vs x y o _ hy ih =>
    obtain ⟨c, hc, hv⟩ := ih hl
    refine ⟨.multiplicative o c y, ?_, fun K _ m => ?_⟩
    · simpa using Parses.multiplicative o hc hy
    · simp [Tree.value, hv, Ratio.neg_apply]
  | _ => cases hl

end Parses

end Arithmetic

end Kinetics

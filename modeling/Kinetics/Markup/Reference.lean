import Kinetics.Json.Literal

/-!
# Kinetics.Markup.Reference

References in markup: named characters, and characters by number. The names are the five of XML
and those that formulas commonly use.
-/

namespace Kinetics

namespace Markup

open Text

/-- The named characters. -/
def namedCharacters : List (String × Char) :=
  [("lt", '<'), ("gt", '>'), ("amp", '&'), ("apos", '\''), ("quot", '"'),
    ("pi", '\u03C0'), ("times", '\u00D7'), ("minus", '\u2212'), ("sum", '\u2211'),
    ("prod", '\u220F'), ("InvisibleTimes", '\u2062'), ("it", '\u2062'),
    ("ApplyFunction", '\u2061'), ("af", '\u2061'), ("le", '\u2264'), ("ge", '\u2265'),
    ("ne", '\u2260'), ("infin", '\u221E'), ("middot", '\u00B7'), ("sdot", '\u22C5'),
    ("divide", '\u00F7')]

/-- The number that a run of hexadecimal digits denotes. -/
def hexNumber? : Nat → List Char → Option Nat
  | n, [] => some n
  | n, c :: r =>
    match Json.hexValue? c with
    | some d => hexNumber? (16 * n + d) r
    | none => none

/-- The code point that a numeric reference writes, without its number sign. -/
def codePoint? : List Char → Option Nat
  | [] => none
  | ['x'] => none
  | 'x' :: r => hexNumber? 0 r
  | cs => if cs.all Char.isDigit then some (digitsValue cs) else none

/-- The character of a reference, given what stands between the ampersand and the semicolon.
Nought and surrogates are no characters. -/
def resolve? : List Char → Option Char
  | '#' :: r =>
    match codePoint? r with
    | some n => if n ≠ 0 && n.isValidChar then some (Char.ofNat n) else none
    | none => none
  | cs => namedCharacters.lookup (String.ofList cs)

/-- The reference after an ampersand and what follows its semicolon; an ampersand or the start of
a tag may not come first. -/
def takeReference : List Char → Option (List Char × List Char)
  | [] => none
  | c :: r =>
    if c = ';' then some ([], r)
    else if c = '&' || c = '<' then none
    else
      match takeReference r with
      | some p => some (c :: p.1, p.2)
      | none => none

theorem takeReference_append {cs name rest : List Char}
    (h : takeReference cs = some (name, rest)) : name ++ ';' :: rest = cs := by
  induction cs generalizing name with
  | nil => cases h
  | cons c r ih =>
    simp only [takeReference] at h
    split at h
    · cases h; simp_all
    · split at h
      · cases h
      · split at h
        · rename_i p hp
          cases h
          simp [ih hp]
        · cases h

end Markup

end Kinetics

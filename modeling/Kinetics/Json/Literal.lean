import Kinetics.Text.Digit

/-!
# Kinetics.Json.Literal

String literals of JSON. A literal keeps the characters between its quotes as written; `text?` is
the text it denotes, if every surrogate escape has its partner. `ofString` writes a text with as
few escapes as the format allows, and reading that literal gives the text back.
-/

namespace Kinetics

namespace Json

/-- The value of a hexadecimal digit of either case. -/
def hexValue? (c : Char) : Option Nat :=
  if c.isDigit then some (c.toNat - 48)
  else if 97 ≤ c.toNat && c.toNat ≤ 102 then some (c.toNat - 87)
  else if 65 ≤ c.toNat && c.toNat ≤ 70 then some (c.toNat - 55)
  else none

/-- The number of four hexadecimal digits. -/
def unit? (a b c d : Char) : Option Nat :=
  match hexValue? a, hexValue? b, hexValue? c, hexValue? d with
  | some a, some b, some c, some d => some (((a * 16 + b) * 16 + c) * 16 + d)
  | _, _, _, _ => none

/-- What a backslash and a letter other than `u` stand for. -/
def escaped? (c : Char) : Option Char :=
  if c = '"' then some '"'
  else if c = '\\' then some '\\'
  else if c = '/' then some '/'
  else if c = 'b' then some '\x08'
  else if c = 'f' then some '\x0c'
  else if c = 'n' then some '\n'
  else if c = 'r' then some '\r'
  else if c = 't' then some '\t'
  else none

def isHighSurrogate (n : Nat) : Bool :=
  0xD800 ≤ n && n < 0xDC00

def isLowSurrogate (n : Nat) : Bool :=
  0xDC00 ≤ n && n < 0xE000

/-- The characters up to the closing quote, as written, and what follows it. Control characters
and escapes the format does not know are refused. -/
def takeLiteral : List Char → Option (List Char × List Char)
  | [] => none
  | c :: r =>
    if c = '"' then some ([], r)
    else if c = '\\' then
      match r with
      | 'u' :: a :: b :: d :: e :: r' =>
        match unit? a b d e, takeLiteral r' with
        | some _, some p => some ('\\' :: 'u' :: a :: b :: d :: e :: p.1, p.2)
        | _, _ => none
      | d :: r' =>
        match escaped? d, takeLiteral r' with
        | some _, some p => some ('\\' :: d :: p.1, p.2)
        | _, _ => none
      | [] => none
    else if c.toNat < 32 then none
    else
      match takeLiteral r with
      | some p => some (c :: p.1, p.2)
      | none => none

theorem takeLiteral_append {cs raw rest : List Char} (h : takeLiteral cs = some (raw, rest)) :
    raw ++ '"' :: rest = cs := by
  fun_induction takeLiteral cs generalizing raw rest <;> simp_all <;> grind

/-- The characters that a literal denotes. -/
def unescape : List Char → Option (List Char)
  | [] => some []
  | c :: r =>
    if c = '\\' then
      match r with
      | 'u' :: a :: b :: d :: e :: r' =>
        match unit? a b d e with
        | none => none
        | some n =>
          if isHighSurrogate n then
            match r' with
            | '\\' :: 'u' :: a' :: b' :: d' :: e' :: r'' =>
              match unit? a' b' d' e' with
              | none => none
              | some m =>
                if isLowSurrogate m then
                  (unescape r'').map
                    (Char.ofNat (0x10000 + (n - 0xD800) * 0x400 + (m - 0xDC00)) :: ·)
                else none
            | _ => none
          else if isLowSurrogate n then none
          else (unescape r').map (Char.ofNat n :: ·)
      | d :: r' =>
        match escaped? d with
        | none => none
        | some ch => (unescape r').map (ch :: ·)
      | [] => none
    else (unescape r).map (c :: ·)

def hexDigit (n : Nat) : Char :=
  if n < 10 then Char.ofNat (48 + n) else Char.ofNat (87 + n)

/-- A character as it stands in a literal. -/
def escape (c : Char) : List Char :=
  if c = '"' then ['\\', '"']
  else if c = '\\' then ['\\', '\\']
  else if c = '\x08' then ['\\', 'b']
  else if c = '\x0c' then ['\\', 'f']
  else if c = '\n' then ['\\', 'n']
  else if c = '\r' then ['\\', 'r']
  else if c = '\t' then ['\\', 't']
  else if c.toNat < 32 then
    ['\\', 'u', '0', '0', hexDigit (c.toNat / 16), hexDigit (c.toNat % 16)]
  else [c]

structure Literal where
  raw : List Char
  deriving DecidableEq

namespace Literal

def text? (l : Literal) : Option String :=
  (unescape l.raw).map String.ofList

def ofString (s : String) : Literal :=
  ⟨s.toList.flatMap escape⟩

end Literal

end Json

end Kinetics

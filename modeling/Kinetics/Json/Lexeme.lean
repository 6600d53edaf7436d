import Kinetics.Json.Value

/-!
# Kinetics.Json.Lexeme

The lexemes of JSON text. Blanks, tabs, line feeds and carriage returns separate lexemes; nothing
else may stand between them.
-/

namespace Kinetics

namespace Json

open Decimal Text

inductive Lexeme where
  | openArray
  | closeArray
  | openObject
  | closeObject
  | comma
  | colon
  | null
  | bool (b : Bool)
  | number (n : Numeral)
  | string (l : Literal)

def isSeparator (c : Char) : Bool :=
  c = ' ' || c = '\t' || c = '\n' || c = '\r'

/-- The whole digits of a number: a nought alone, or digits that do not start with one. -/
def takeWhole : List Char → Option (List Char × List Char)
  | [] => none
  | c :: r =>
    if c = '0' then some (['0'], r)
    else if c.isDigit then some (c :: r.takeWhile Char.isDigit, r.dropWhile Char.isDigit)
    else none

/-- The digits after a decimal point, if one stands here. -/
def takeFraction : List Char → Option (List Char × List Char)
  | '.' :: c :: r =>
    if c.isDigit then some (c :: r.takeWhile Char.isDigit, r.dropWhile Char.isDigit) else none
  | '.' :: [] => none
  | cs => some ([], cs)

/-- The digits of an exponent after its letter and sign. -/
def takePower (negative : Bool) : List Char → Option (Option Int × List Char)
  | [] => none
  | c :: r =>
    if c.isDigit then
      let n : Int := digitsValue (c :: r.takeWhile Char.isDigit)
      some (some (if negative then -n else n), r.dropWhile Char.isDigit)
    else none

/-- The exponent, if one stands here. -/
def takeExponent : List Char → Option (Option Int × List Char)
  | [] => some (none, [])
  | c :: r =>
    if c = 'e' || c = 'E' then
      match r with
      | '-' :: r' => takePower true r'
      | '+' :: r' => takePower false r'
      | r' => takePower false r'
    else some (none, c :: r)

/-- The numeral at the front and what follows it. -/
def takeNumeral (cs : List Char) : Option (Numeral × List Char) :=
  let signed :=
    match cs with
    | '-' :: r => (true, r)
    | r => (false, r)
  match takeWhole signed.2 with
  | none => none
  | some (whole, r) =>
    match takeFraction r with
    | none => none
    | some (fraction, r) =>
      match takeExponent r with
      | none => none
      | some (exponent, r) => some (⟨signed.1, whole, fraction, exponent⟩, r)

/-- Takes a given word off the front. -/
def takeWord : List Char → List Char → Option (List Char)
  | [], cs => some cs
  | w :: ws, c :: cs => if w = c then takeWord ws cs else none
  | _ :: _, [] => none

/-- The lexeme that a character is. -/
def punctuation? (c : Char) : Option Lexeme :=
  match c with
  | '[' => some .openArray
  | ']' => some .closeArray
  | '{' => some .openObject
  | '}' => some .closeObject
  | ',' => some .comma
  | ':' => some .colon
  | _ => none

/-- The lexemes written as words. -/
def words : List (List Char × Lexeme) :=
  [("null".toList, .null), ("true".toList, .bool true), ("false".toList, .bool false)]

/-- The word at the front and what follows it. -/
def takeNamed (cs : List Char) : List (List Char × Lexeme) → Option (Lexeme × List Char)
  | [] => none
  | (word, l) :: ws =>
    match takeWord word cs with
    | some r => some (l, r)
    | none => takeNamed cs ws

/-- The lexeme that starts with a character, and what follows it. -/
def takeLexeme (c : Char) (r : List Char) : Option (Lexeme × List Char) :=
  match punctuation? c with
  | some l => some (l, r)
  | none =>
    if c = '"' then
      match takeLiteral r with
      | some (raw, r) => some (.string ⟨raw⟩, r)
      | none => none
    else
      match takeNamed (c :: r) words with
      | some (l, r) => some (l, r)
      | none =>
        match takeNumeral (c :: r) with
        | some (n, r) => some (.number n, r)
        | none => none

theorem length_dropWhile_le (p : Char → Bool) (cs : List Char) :
    (cs.dropWhile p).length ≤ cs.length :=
  (List.dropWhile_suffix p).length_le

theorem length_takeWord {ws cs r : List Char} (h : takeWord ws cs = some r) :
    cs.length = ws.length + r.length := by
  fun_induction takeWord ws cs with
  | case1 => cases h; simp
  | case2 _ _ _ ih => simp only [List.length_cons, ih h]; omega
  | case3 => cases h
  | case4 => cases h

theorem length_takeNamed {cs r : List Char} {l : Lexeme} {ws : List (List Char × Lexeme)}
    (hw : ∀ w ∈ ws, 0 < w.1.length) (h : takeNamed cs ws = some (l, r)) :
    r.length < cs.length := by
  induction ws with
  | nil => cases h
  | cons w ws ih =>
    obtain ⟨word, m⟩ := w
    simp only [takeNamed] at h
    split at h
    · rename_i hr
      cases h
      have := length_takeWord hr
      have := hw _ List.mem_cons_self
      simp only at this
      omega
    · exact ih (fun w hm => hw w (List.mem_cons_of_mem _ hm)) h

theorem length_takeWhole {cs d r : List Char} (h : takeWhole cs = some (d, r)) :
    r.length < cs.length := by
  unfold takeWhole at h
  split at h
  · cases h
  · split at h
    · cases h; simp
    · split at h
      · cases h
        exact Nat.lt_succ_of_le (length_dropWhile_le _ _)
      · cases h

theorem length_takeFraction {cs d r : List Char} (h : takeFraction cs = some (d, r)) :
    r.length ≤ cs.length := by
  unfold takeFraction at h
  split at h
  · split at h
    · cases h
      exact Nat.le_succ_of_le (Nat.le_succ_of_le (length_dropWhile_le _ _))
    · cases h
  · cases h
  · cases h; exact Nat.le_refl _

theorem length_takePower {negative : Bool} {cs r : List Char} {e : Option Int}
    (h : takePower negative cs = some (e, r)) : r.length ≤ cs.length := by
  unfold takePower at h
  split at h
  · cases h
  · split at h
    · cases h
      exact Nat.le_succ_of_le (length_dropWhile_le _ _)
    · cases h

theorem length_takeExponent {cs r : List Char} {e : Option Int}
    (h : takeExponent cs = some (e, r)) : r.length ≤ cs.length := by
  unfold takeExponent at h
  split at h
  · cases h; exact Nat.le_refl _
  · split at h
    · split at h
      · exact Nat.le_succ_of_le (Nat.le_succ_of_le (length_takePower h))
      · exact Nat.le_succ_of_le (Nat.le_succ_of_le (length_takePower h))
      · exact Nat.le_succ_of_le (length_takePower h)
    · cases h; exact Nat.le_refl _

theorem length_takeNumeral {cs r : List Char} {n : Numeral}
    (h : takeNumeral cs = some (n, r)) : r.length < cs.length := by
  unfold takeNumeral at h
  simp only at h
  split at h
  · cases h
  · rename_i hw
    split at h
    · cases h
    · rename_i hf
      split at h
      · cases h
      · rename_i he
        cases h
        have h1 := length_takeWhole hw
        have h2 := length_takeFraction hf
        have h3 := length_takeExponent he
        split at h1 <;> simp only [List.length_cons] at * <;> omega

theorem length_takeLexeme {c : Char} {r rest : List Char} {l : Lexeme}
    (h : takeLexeme c r = some (l, rest)) : rest.length ≤ r.length := by
  unfold takeLexeme at h
  split at h
  · cases h; exact Nat.le_refl _
  · split at h
    · split at h
      · rename_i hl
        cases h
        have := congrArg List.length (takeLiteral_append hl)
        simp only [List.length_append, List.length_cons] at this
        omega
      · cases h
    · split at h
      · rename_i hn
        cases h
        exact Nat.le_of_lt_succ (length_takeNamed (by decide) hn)
      · split at h
        · rename_i hn
          cases h
          exact Nat.le_of_lt_succ (length_takeNumeral hn)
        · cases h

/-- The lexemes of a text. -/
def lex : List Char → Option (List Lexeme)
  | [] => some []
  | c :: r =>
    if isSeparator c then lex r
    else
      match _h : takeLexeme c r with
      | none => none
      | some (l, rest) => (lex rest).map (l :: ·)
termination_by cs => cs.length
decreasing_by
  · simp
  · exact Nat.lt_succ_of_le (length_takeLexeme _h)

end Json

end Kinetics

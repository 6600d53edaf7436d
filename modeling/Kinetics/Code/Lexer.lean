import Kinetics.Code.Token

/-!
# Kinetics.Code.Lexer

One line of code as tokens. Blanks separate tokens and are dropped; every other character lands in
exactly one lexeme, because each step takes a non-empty prefix of what is left.
-/

namespace Kinetics

namespace Code

open Text

def startsName (c : Char) : Bool :=
  c = '_' || isIdentifierStart c

/-- A dot continues a name: a dotted path is one token. -/
def continuesName (c : Char) : Bool :=
  c = '.' || isIdentifierContinue c

def continuesNumber (c : Char) : Bool :=
  c.isDigit || c = '.'

/-- The operators of two characters. -/
def pairOperators : List (List Char) :=
  [['*', '*'], ['<', '='], ['>', '='], ['=', '='], ['!', '='], ['/', '/']]

/-- The optional sign of an exponent, and what follows it. -/
def takeSign : List Char → List Char × List Char
  | '+' :: r => (['+'], r)
  | '-' :: r => (['-'], r)
  | cs => ([], cs)

def startsWithDigit : List Char → Bool
  | c :: _ => c.isDigit
  | [] => false

/-- The exponent at the front, empty unless a digit follows the letter and its sign. -/
def takeExponent : List Char → List Char × List Char
  | [] => ([], [])
  | c :: r =>
    if c = 'e' || c = 'E' then
      let signed := takeSign r
      if startsWithDigit signed.2 then
        (c :: (signed.1 ++ signed.2.takeWhile Char.isDigit), signed.2.dropWhile Char.isDigit)
      else ([], c :: r)
    else ([], c :: r)

/-- The rest of a string literal up to and with its closing quote. A backslash takes the next
character along; an unclosed literal takes all. -/
def takeQuoted (quote : Char) : List Char → List Char × List Char
  | [] => ([], [])
  | c :: r =>
    if c = quote then ([c], r)
    else if c = '\\' then
      match r with
      | [] => ([c], [])
      | d :: r' =>
        let p := takeQuoted quote r'
        (c :: d :: p.1, p.2)
    else
      let p := takeQuoted quote r
      (c :: p.1, p.2)

/-- The operator that starts with a character, of two characters where such a one stands there. -/
def takeOperator (c : Char) : List Char → List Char × List Char
  | [] => ([c], [])
  | d :: r => if pairOperators.contains [c, d] then ([c, d], r) else ([c], d :: r)

/-- The token that starts with a character that is no blank, and what follows it. -/
def takeToken (c : Char) (r : List Char) : Token × List Char :=
  if c = '#' then (.comment (c :: r), [])
  else if c.isDigit || (c = '.' && startsWithDigit r) then
    let e := takeExponent (r.dropWhile continuesNumber)
    (.number (c :: (r.takeWhile continuesNumber ++ e.1)), e.2)
  else if startsName c then
    (.name (c :: r.takeWhile continuesName), r.dropWhile continuesName)
  else if c = '\'' || c = '"' then
    let p := takeQuoted c r
    (.quoted (c :: p.1), p.2)
  else match opening? c with
    | some b => (.opening b, r)
    | none =>
      match closing? c with
      | some b => (.closing b, r)
      | none =>
        if c = ',' then (.comma, r)
        else if c = ':' then (.colon, r)
        else
          let p := takeOperator c r
          (.operator p.1, p.2)

theorem takeSign_append (cs : List Char) : (takeSign cs).1 ++ (takeSign cs).2 = cs := by
  unfold takeSign
  split <;> rfl

theorem takeExponent_append (cs : List Char) :
    (takeExponent cs).1 ++ (takeExponent cs).2 = cs := by
  cases cs with
  | nil => rfl
  | cons c r =>
    simp only [takeExponent]
    split
    · split
      · simp [List.append_assoc, takeSign_append]
      · rfl
    · rfl

theorem takeQuoted_append (q : Char) (cs : List Char) :
    (takeQuoted q cs).1 ++ (takeQuoted q cs).2 = cs := by
  fun_induction takeQuoted q cs with
  | case1 => rfl
  | case2 => rfl
  | case3 => rfl
  | case4 d r p _ ih => simpa [p] using ih
  | case5 c r _ _ p ih => simpa [p] using ih

theorem takeOperator_append (c : Char) (r : List Char) :
    (takeOperator c r).1 ++ (takeOperator c r).2 = c :: r := by
  cases r with
  | nil => rfl
  | cons d r =>
    simp only [takeOperator]
    split <;> rfl

theorem opener_of_opening? {c : Char} {b : Bracket} (h : opening? c = some b) : b.opener = c := by
  unfold opening? at h
  split at h
  · cases h; simp_all [Bracket.opener]
  · split at h
    · cases h; simp_all [Bracket.opener]
    · split at h
      · cases h; simp_all [Bracket.opener]
      · cases h

theorem closer_of_closing? {c : Char} {b : Bracket} (h : closing? c = some b) : b.closer = c := by
  unfold closing? at h
  split at h
  · cases h; simp_all [Bracket.closer]
  · split at h
    · cases h; simp_all [Bracket.closer]
    · split at h
      · cases h; simp_all [Bracket.closer]
      · cases h

/-- A step loses nothing: the lexeme and the rest are the text. -/
theorem takeToken_append (c : Char) (r : List Char) :
    (takeToken c r).1.text ++ (takeToken c r).2 = c :: r := by
  unfold takeToken
  split
  · simp [Token.text]
  · split
    · simp [Token.text, List.append_assoc, takeExponent_append]
    · split
      · simp [Token.text]
      · split
        · simp [Token.text, takeQuoted_append]
        · split
          · rename_i b h
            simp [Token.text, opener_of_opening? h]
          · split
            · rename_i b h
              simp [Token.text, closer_of_closing? h]
            · split
              · simp_all [Token.text]
              · split
                · simp_all [Token.text]
                · simp [Token.text, takeOperator_append]

theorem takeToken_text_ne_nil (c : Char) (r : List Char) : (takeToken c r).1.text ≠ [] := by
  unfold takeToken
  repeat' split
  all_goals simp [Token.text]
  unfold takeOperator
  repeat' split
  all_goals simp

theorem takeToken_length (c : Char) (r : List Char) : (takeToken c r).2.length ≤ r.length := by
  have h := congrArg List.length (takeToken_append c r)
  have h' := List.length_pos_iff.2 (takeToken_text_ne_nil c r)
  simp only [List.length_append, List.length_cons] at h
  omega

/-- The tokens of a line. -/
def lex : List Char → List Token
  | [] => []
  | c :: r =>
    if isBlank c then lex r
    else (takeToken c r).1 :: lex (takeToken c r).2
termination_by cs => cs.length
decreasing_by
  · simp
  · exact Nat.lt_succ_of_le (takeToken_length c r)

end Code

end Kinetics

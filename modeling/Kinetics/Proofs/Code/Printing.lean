import Kinetics.Proofs.Code.Line

/-!
# Kinetics.Proofs.Code.Printing

Printed lines. The characters of a token alone are that token (`takeToken_self`), and a printed
line is cut into the tokens it was printed from (`OfLine.lex_print`).
-/

namespace Kinetics

namespace Code

open Text

section Print

variable {c : Char} {cs r rest : List Char} {t : Token} {ts : List Token}

theorem takeWhile_self {p : Char → Bool} (cs : List Char) :
    (cs.takeWhile p).takeWhile p = cs.takeWhile p ∧ (cs.takeWhile p).dropWhile p = [] := by
  have h : ∀ c ∈ cs.takeWhile p, p c = true := List.all_eq_true.1 List.all_takeWhile
  exact ⟨List.takeWhile_eq_self_iff.2 h, List.dropWhile_eq_nil_iff.2 h⟩

theorem takeSign_self (hd : startsWithDigit (takeSign r).2 = true) :
    takeSign ((takeSign r).1 ++ (takeSign r).2.takeWhile Char.isDigit) =
      ((takeSign r).1, (takeSign r).2.takeWhile Char.isDigit) := by
  unfold takeSign at hd ⊢
  split at hd
  · rfl
  · rfl
  · cases r with
    | nil => cases hd
    | cons d r =>
      have hd : d.isDigit = true := hd
      simp only [List.nil_append, List.takeWhile_cons, hd, if_true]
      split
      · rename_i he
        cases he
        exact absurd hd (by decide)
      · rename_i he
        cases he
        exact absurd hd (by decide)
      · rfl

/-- An exponent that is taken is one by itself. -/
theorem takeExponent_self (cs : List Char) :
    takeExponent (takeExponent cs).1 = ((takeExponent cs).1, []) ∧
      Ends continuesNumber (takeExponent cs).1 := by
  cases cs with
  | nil => exact ⟨rfl, .nil _⟩
  | cons c r =>
    by_cases hc : (c = 'e' || c = 'E') = true
    · by_cases hd : startsWithDigit (takeSign r).2 = true
      · have hs := takeSign_self hd
        obtain ⟨ht, hdrop⟩ := takeWhile_self (p := Char.isDigit) (takeSign r).2
        have hsd : startsWithDigit ((takeSign r).2.takeWhile Char.isDigit) = true := by
          cases hr : (takeSign r).2 with
          | nil =>
            rw [hr] at hd
            cases hd
          | cons d s =>
            rw [hr] at hd
            have hd : d.isDigit = true := hd
            simp [hd, startsWithDigit]
        have he : (takeExponent (c :: r)).1 =
            c :: ((takeSign r).1 ++ (takeSign r).2.takeWhile Char.isDigit) := by
          simp only [takeExponent, hc, hd, if_true]
        rw [he]
        refine ⟨?_, .cons ?_⟩
        · simp only [takeExponent, hc, hs, hsd, ht, hdrop, if_true]
        · simp only [Bool.or_eq_true, decide_eq_true_eq] at hc
          rcases hc with rfl | rfl <;> rfl
      · have he : (takeExponent (c :: r)).1 = [] := by simp [takeExponent, hd]
        rw [he]
        exact ⟨rfl, .nil _⟩
    · have he : (takeExponent (c :: r)).1 = [] := by simp [takeExponent, hc]
      rw [he]
      exact ⟨rfl, .nil _⟩

theorem takeOperator_self (c : Char) (r : List Char) :
    takeOperator c (takeOperator c r).1.tail = ((takeOperator c r).1, []) ∧
      startsWithDigit (takeOperator c r).1.tail = false := by
  cases r with
  | nil => exact ⟨rfl, rfl⟩
  | cons d r =>
    by_cases h : pairOperators.contains [c, d] = true
    · have ht : takeOperator c (d :: r) = ([c, d], r) := by rw [takeOperator, if_pos h]
      have hd : d.isDigit = false := by
        simp only [pairOperators, List.contains_eq_mem, List.mem_cons, List.cons.injEq,
          decide_eq_true_eq] at h
        rcases h with h | h | h | h | h | h | h <;> first | (rw [h.2.1]; rfl) | cases h
      rw [ht]
      exact ⟨by rw [List.tail_cons, takeOperator, if_pos h], hd⟩
    · have ht : takeOperator c (d :: r) = ([c], d :: r) := by rw [takeOperator, if_neg h]
      rw [ht]
      exact ⟨rfl, rfl⟩

/-- A number stands at the front of its own characters. -/
theorem startsNumber_self {e : List Char} (h : (c.isDigit || (c = '.' && startsWithDigit r)) = true) :
    (c.isDigit || (c = '.' && startsWithDigit (r.takeWhile continuesNumber ++ e))) = true := by
  simp only [Bool.or_eq_true, Bool.and_eq_true, decide_eq_true_eq] at h ⊢
  refine h.imp_right fun ⟨hc, hr⟩ => ⟨hc, ?_⟩
  cases r with
  | nil => cases hr
  | cons d r =>
    have hd : d.isDigit = true := hr
    simp [continuesNumber, hd, startsWithDigit]

theorem takeToken_number_self (hnum : (c.isDigit || (c = '.' && startsWithDigit r)) = true)
    (hcomment : c ≠ '#') :
    takeToken c (takeToken c r).1.text.tail = ((takeToken c r).1, []) := by
  obtain ⟨he, hends⟩ := takeExponent_self (r.dropWhile continuesNumber)
  obtain ⟨ht, hd⟩ := hends.cut (List.all_eq_true.1 (List.all_takeWhile (l := r)))
  have hr : takeToken c r = (.number (c :: (r.takeWhile continuesNumber ++
      (takeExponent (r.dropWhile continuesNumber)).1)),
        (takeExponent (r.dropWhile continuesNumber)).2) := by
    rw [takeToken, if_neg hcomment, if_pos hnum]
  rw [hr]
  simp only [Token.text, List.tail_cons]
  rw [takeToken, if_neg hcomment, if_pos (startsNumber_self hnum), ht, hd, he]

theorem takeToken_name (hc : startsName c = true) (r : List Char) :
    takeToken c r = (.name (c :: r.takeWhile continuesName), r.dropWhile continuesName) := by
  have hcomment : c ≠ '#' := by
    rintro rfl
    revert hc
    decide +kernel
  have hpoint : c ≠ '.' := by
    rintro rfl
    revert hc
    decide +kernel
  simp [takeToken, hcomment, hpoint, not_digit_of_startsName hc, hc]

/-- A character that starts neither text nor a number nor a name. -/
structure Marks (c : Char) : Prop where
  plain : opensText c = false
  digit : c.isDigit = false
  name : startsName c = false

/-- The token of such a character, brackets and separators first. -/
def markToken (c : Char) (r : List Char) : Token × List Char :=
  match opening? c with
  | some b => (.opening b, r)
  | none =>
    match closing? c with
    | some b => (.closing b, r)
    | none =>
      if c = ',' then (.comma, r)
      else if c = ':' then (.colon, r)
      else (.operator (takeOperator c r).1, (takeOperator c r).2)

theorem Marks.takeToken (h : Marks c) (hr : c = '.' → startsWithDigit r = false) :
    takeToken c r = markToken c r := by
  have hp := h.plain
  simp only [opensText, Bool.or_eq_false_iff, beq_eq_false_iff_ne] at hp
  obtain ⟨⟨hq, hqq⟩, hcomment⟩ := hp
  have hnum : ¬(c.isDigit || (c = '.' && startsWithDigit r)) = true := by
    simpa [h.digit] using hr
  rw [Code.takeToken, if_neg hcomment, if_neg hnum, if_neg (by simp [h.name]),
    if_neg (by simp [hq, hqq])]
  rfl

theorem markToken_self (c : Char) (r : List Char) :
    markToken c (markToken c r).1.text.tail = ((markToken c r).1, []) ∧
      startsWithDigit (markToken c r).1.text.tail = false := by
  unfold markToken
  split
  · exact ⟨rfl, rfl⟩
  · split
    · exact ⟨rfl, rfl⟩
    · split
      · exact ⟨rfl, rfl⟩
      · split
        · exact ⟨rfl, rfl⟩
        · obtain ⟨ht, hd⟩ := takeOperator_self c r
          exact ⟨by simp only [Token.text, ht], hd⟩

/-- The characters of a token alone are that token. -/
theorem takeToken_self (c : Char) (r : List Char) :
    takeToken c (takeToken c r).1.text.tail = ((takeToken c r).1, []) := by
  by_cases hc : opensText c = true
  · simp only [opensText, Bool.or_eq_true, beq_iff_eq] at hc
    rcases hc with hc | rfl
    · have ht : (takeToken c r).1.text.tail = (takeQuoted c r).1 := by rw [takeToken_quote hc]; rfl
      rw [ht, takeToken_quote hc, takeToken_quote hc, takeQuoted_within (List.prefix_refl _)]
    · rw [takeToken_comment]
      exact takeToken_comment r
  · have hc : opensText c = false := by simpa using hc
    by_cases hnum : (c.isDigit || (c = '.' && startsWithDigit r)) = true
    · refine takeToken_number_self hnum ?_
      rintro rfl
      cases hc
    · simp only [Bool.or_eq_true, not_or, Bool.not_eq_true, Bool.and_eq_true, decide_eq_true_eq,
        not_and] at hnum
      by_cases hn : startsName c = true
      · obtain ⟨ht, hd⟩ := takeWhile_self (p := continuesName) r
        rw [takeToken_name hn, takeToken_name hn]
        simp only [Token.text, List.tail_cons, ht, hd]
      · have hm : Marks c := ⟨hc, hnum.1, by simpa using hn⟩
        obtain ⟨ht, hd⟩ := markToken_self c r
        rw [hm.takeToken hnum.2, hm.takeToken fun _ => hd, ht]

/-- A token that its characters are cut into. -/
def Lexed (t : Token) : Prop :=
  ∃ c r, t.text = c :: r ∧ isBlank c = false ∧ takeToken c r = (t, [])

theorem lexed_takeToken (hc : isBlank c = false) (r : List Char) : Lexed (takeToken c r).1 := by
  refine ⟨c, (takeToken c r).1.text.tail, ?_, hc, takeToken_self c r⟩
  have happ := takeToken_append c r
  have hne := takeToken_text_ne_nil c r
  generalize (takeToken c r).1.text = u at happ hne
  cases u with
  | nil => exact absurd rfl hne
  | cons d u => simp_all

theorem Lexed.lex_text (h : Lexed t) : lex t.text = [t] := by
  obtain ⟨c, r, ht, hb, hc⟩ := h
  rw [ht, lex_cons hb, hc, lex]

/-- A token that is over in front of a blank or a bracket, whatever follows. -/
def Ended (t : Token) : Prop :=
  ∀ b rest, isStop b = true → lex (t.text ++ b :: rest) = t :: lex (b :: rest)

theorem ended_of_plain (h : Lexed t) (hp : Plain t.text) : Ended t := by
  intro b rest hb
  rw [lex_append hp hb, h.lex_text]
  rfl

/-- A token that leaves something of the line is over. -/
theorem ended_takeToken (hb : isBlank c = false) (h : (takeToken c r).2 ≠ []) :
    Ended (takeToken c r).1 := by
  by_cases hc : opensText c = true
  · simp only [opensText, Bool.or_eq_true, beq_iff_eq] at hc
    rcases hc with hc | rfl
    · rw [takeToken_quote hc] at h ⊢
      intro b rest _
      rw [Token.text, List.cons_append, lex_cons hb, takeToken_quote hc, takeQuoted_closed h]
    · rw [takeToken_comment] at h
      exact absurd rfl h
  · exact ended_of_plain (lexed_takeToken hb r) (plain_takeToken (by simpa using hc) r)

/-- The tokens of one line: only the last one may take what follows along. -/
structure OfLine (ts : List Token) : Prop where
  lexed : ∀ t ∈ ts, Lexed t
  ended : ts.Pairwise fun t _ => Ended t

theorem OfLine.sublist {us : List Token} (h : OfLine ts) (hs : us.Sublist ts) : OfLine us :=
  ⟨fun t ht => h.lexed t (hs.subset ht), h.ended.sublist hs⟩

theorem ofLine_lex (cs : List Char) : OfLine (lex cs) := by
  fun_induction lex cs with
  | case1 => exact ⟨List.forall_mem_nil _, .nil⟩
  | case2 c r hc ih => exact ih
  | case3 c r hc ih =>
    have hc : isBlank c = false := by simpa using hc
    refine ⟨List.forall_mem_cons.2 ⟨lexed_takeToken hc r, ih.lexed⟩, .cons (fun u hu => ?_) ih.ended⟩
    refine ended_takeToken hc fun hnil => ?_
    rw [hnil, lex] at hu
    cases hu

/-- Nothing goes on with such a token. -/
def isFree : Token → Bool
  | .opening _ => true
  | .colon => true
  | t => isPlusOrMinus t

theorem lex_marks (h : Marks c) (hb : isBlank c = false) (hpoint : c ≠ '.')
    (ht : markToken c rest = (t, rest)) : lex (c :: rest) = t :: lex rest := by
  rw [lex_cons hb, h.takeToken fun hc => absurd hc hpoint, ht]

theorem takeOperator_sign (hc : c = '+' ∨ c = '-') (rest : List Char) :
    takeOperator c rest = ([c], rest) := by
  cases rest with
  | nil => rfl
  | cons d rest => rcases hc with rfl | rfl <;> simp [takeOperator, pairOperators]

theorem lex_free (h : isFree t = true) : lex (t.text ++ rest) = t :: lex rest := by
  have hs (c : Char) (hc : c = '+' ∨ c = '-') :
      lex (c :: rest) = .operator [c] :: lex rest := by
    have ho := takeOperator_sign hc rest
    rcases hc with rfl | rfl <;>
      exact lex_marks ⟨rfl, rfl, by decide +kernel⟩ (by decide) (by decide)
        (by simp only [markToken, ho]; rfl)
  cases t with
  | opening b =>
    cases b <;> exact lex_marks ⟨rfl, rfl, by decide +kernel⟩ (by decide) (by decide) rfl
  | colon => exact lex_marks ⟨rfl, rfl, by decide +kernel⟩ (by decide) (by decide) rfl
  | operator s =>
    simp only [isFree, isPlusOrMinus, Bool.or_eq_true, beq_iff_eq] at h
    rcases h with rfl | rfl
    · exact hs '-' (.inr rfl)
    · exact hs '+' (.inl rfl)
  | _ => cases h

def isPunctuation : Token → Bool
  | .opening _ => true
  | .closing _ => true
  | .comma => true
  | .colon => true
  | _ => false

theorem text_punctuation (h : isPunctuation t = true) : ∃ b, t.text = [b] ∧ isStop b = true := by
  cases t with
  | opening b => cases b <;> exact ⟨_, rfl, by decide⟩
  | closing b => cases b <;> exact ⟨_, rfl, by decide⟩
  | comma => exact ⟨_, rfl, by decide⟩
  | colon => exact ⟨_, rfl, by decide⟩
  | _ => cases h

/-- Where the printer leaves no blank, the token before is over anyway. -/
theorem free_of_not_spaced {before : Token} {sign : Bool}
    (hsign : sign = true → isPlusOrMinus before = true) (h : spaced before sign t = false) :
    isFree before = true ∨ isPunctuation t = true := by
  cases before <;> cases t <;> simp_all [spaced, isFree, isPunctuation, Token.takesBracket]

theorem lex_printFrom {before : Token} {sign : Bool} (h : OfLine (before :: ts))
    (hsign : sign = true → isPlusOrMinus before = true) :
    lex (before.text ++ printFrom before sign ts) = before :: ts := by
  induction ts generalizing before sign with
  | nil => rw [printFrom, List.append_nil, (h.lexed before (by simp)).lex_text]
  | cons t ts ih =>
    have hnext : isSign (some before) t = true → isPlusOrMinus t = true := by
      intro h
      simp only [isSign, Bool.and_eq_true] at h
      exact h.1
    have hb : Ended before := (List.pairwise_cons.1 h.ended).1 t (by simp)
    have hrest := ih (h.sublist (List.sublist_cons_self before _)) hnext
    rw [printFrom, List.append_assoc]
    cases hs : spaced before sign t with
    | true => rw [if_pos rfl, List.singleton_append, hb _ _ (by decide), lex, if_pos (by decide), hrest]
    | false =>
      rw [if_neg (by simp), List.nil_append]
      rcases free_of_not_spaced hsign hs with hf | hp
      · rw [lex_free hf, hrest]
      · obtain ⟨b, htext, hstop⟩ := text_punctuation hp
        rw [htext, List.singleton_append] at hrest ⊢
        rw [hb _ _ hstop, hrest]

theorem OfLine.lex_print (h : OfLine ts) : lex (print ts) = ts := by
  cases ts with
  | nil => rw [print, lex]
  | cons t ts =>
    refine lex_printFrom h fun h => ?_
    simp only [isSign, Bool.and_eq_true] at h
    exact h.1

end Print

end Code

end Kinetics

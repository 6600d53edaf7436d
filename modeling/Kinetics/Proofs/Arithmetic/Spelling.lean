import Kinetics.Proofs.Arithmetic.Reader
import Kinetics.Proofs.Arithmetic.Regrouping
import Kinetics.Proofs.Code.Lexeme

/-!
# Kinetics.Proofs.Arithmetic.Spelling

Printed arithmetic is read back. The blanks that the printer leaves out stand between tokens that
no reader would join, so `scan` finds the tokens of a printed line. With the two passes over
parentheses this gives `read_normalize`: the normal form of a line says what the line said.
-/

namespace Kinetics

namespace Arithmetic

open Code Text

@[simp]
theorem opener_round : Bracket.round.opener = '(' := rfl

@[simp]
theorem closer_round : Bracket.round.closer = ')' := rfl

namespace Numeral

theorem text_cons (n : Numeral) : ∃ c s, n.text = c :: s ∧
    (c.isDigit = true ∨ c = '.' ∧ startsWithDigit s = true) ∧
    ∀ d ∈ s, continuesNumber d = true := by
  have hall : ∀ d ∈ n.text, continuesNumber d = true := by
    intro d hd
    simp only [text, List.mem_append] at hd
    rcases hd with hd | hd
    · simp [continuesNumber, n.whole_digits d hd]
    · split at hd
      · simp only [List.mem_cons] at hd
        rcases hd with rfl | hd
        · rfl
        · simp [continuesNumber, n.fraction_digits d hd]
      · cases hd
  cases hw : n.whole with
  | cons c s =>
    refine ⟨c, s ++ if n.point then '.' :: n.fraction else [], by simp [text, hw], .inl ?_, ?_⟩
    · exact n.whole_digits c (by simp [hw])
    · intro d hd
      exact hall d (by simp only [text, hw, List.cons_append]; exact List.mem_cons_of_mem _ hd)
  | nil =>
    cases hp : n.point with
    | false => exact absurd hw (n.whole_only hp).2
    | true =>
      refine ⟨'.', n.fraction, by simp [text, hw, hp], .inr ⟨rfl, ?_⟩, ?_⟩
      · cases hf : n.fraction with
        | nil => exact absurd hf (n.digits_around hp hw)
        | cons d s => exact n.fraction_digits d (by simp [hf])
      · intro d hd
        exact hall d (by simp [text, hw, hp, hd])

theorem of_ofDigits? {whole fraction : List Char} {point : Bool} {n : Numeral}
    (h : ofDigits? whole point fraction = some n) :
    n.text = whole ++ if point then '.' :: fraction else [] := by
  rw [ofDigits?] at h
  split at h
  · cases h
    rfl
  · cases h

theorem text_of_ofText? {cs : List Char} {n : Numeral} (h : ofText? cs = some n) :
    n.text = cs := by
  have hcut := List.takeWhile_append_dropWhile (p := Char.isDigit) (l := cs)
  unfold ofText? at h
  split at h
  · rename_i hd
    rw [of_ofDigits? h]
    rw [hd] at hcut
    simpa using hcut
  · rename_i r hd
    rw [of_ofDigits? h]
    rw [hd] at hcut
    simpa using hcut
  · cases h

end Numeral

/-- The tokens of arithmetic, by their characters. -/
inductive Written : Token → Prop where
  | name {c : Char} {s : List Char} : startsName c = true →
      (∀ d ∈ s, continuesName d = true) → Written (.name (c :: s))
  | number {c : Char} {s : List Char} : (c.isDigit = true ∨ c = '.' ∧ startsWithDigit s = true) →
      (∀ d ∈ s, continuesNumber d = true) → Written (.number (c :: s))
  | sign (o : Sign) : Written o.token
  | ratio (o : Ratio) : Written o.token
  | power : Written powerToken
  | opening : Written (.opening .round)
  | closing : Written (.closing .round)
  | comma : Written .comma

theorem Written.word {w : List Char} (h : Written (.name w)) :
    ∃ c s, w = c :: s ∧ startsName c = true ∧ ∀ d ∈ s, continuesName d = true := by
  generalize ht : Token.name w = t at h
  cases h with
  | name hc hs =>
    cases ht
    exact ⟨_, _, rfl, hc, hs⟩
  | sign o => cases o <;> cases ht
  | ratio o => cases o <;> cases ht
  | _ => cases ht

theorem written_name {s : List Char} (h : isName s = true) : Written (.name s) := by
  simp only [isName, Bool.and_eq_true] at h
  cases s with
  | nil => cases h.1
  | cons c s =>
    simp only [isIdentifier, Bool.and_eq_true, List.all_eq_true] at h
    refine .name ?_ fun d hd => ?_
    · simpa [startsName] using h.1.1
    · simp [continuesName, h.1.2 d hd]

theorem written_numeral {s : List Char} {n : Numeral} (h : Numeral.ofText? s = some n) :
    Written (.number s) := by
  obtain ⟨c, r, hs, hc, hr⟩ := n.text_cons
  rw [Numeral.text_of_ofText? h] at hs
  subst hs
  exact .number hc hr

theorem written_path {c : Char} {s : List Char} (hc : startsName c = true)
    (hs : s.all continuesName = true) : Written (.name (c :: s)) :=
  .name hc (List.all_eq_true.1 hs)

theorem written_call (f : Call) : Written (.name f.word) := by
  cases f <;> exact written_path (by decide) (by decide)

theorem written_maximum : Written (.name maximumWord) :=
  written_path (by decide) (by decide)

theorem Parses.written {l : Level} {ts : List Token} {a : Tree} (h : Parses l ts a) :
    ∀ t ∈ ts, Written t := by
  induction h with
  | name hs => simpa using written_name hs
  | numeral hn => simpa using written_numeral hn
  | group _ ih => simpa [inBrackets, or_imp, forall_and] using ⟨.opening, ih, .closing⟩
  | call f _ ih =>
    simpa [inBrackets, or_imp, forall_and] using ⟨written_call f, .opening, ih, .closing⟩
  | maximum _ _ iha ihb =>
    simpa [inBrackets, or_imp, forall_and] using
      ⟨written_maximum, .opening, iha, .comma, ihb, .closing⟩
  | atom _ ih => exact ih
  | power _ _ iha ihb => simpa [or_imp, forall_and] using ⟨iha, .power, ihb⟩
  | negative _ ih => simpa [or_imp, forall_and] using ⟨.sign .minus, ih⟩
  | factor _ ih => exact ih
  | multiplicative o _ _ iha ihb => simpa [or_imp, forall_and] using ⟨iha, .ratio o, ihb⟩
  | term _ ih => exact ih
  | additive o _ _ iha ihb => simpa [or_imp, forall_and] using ⟨iha, .sign o, ihb⟩

theorem Parses.ne_nil {l : Level} {ts : List Token} {a : Tree} (h : Parses l ts a) : ts ≠ [] := by
  induction h with
  | atom _ ih => exact ih
  | factor _ ih => exact ih
  | term _ ih => exact ih
  | _ => simp [inBrackets]

/-- The characters with which a reader would go on after those of a token. -/
def runsOn : Token → Char → Bool
  | .name _, c => continuesName c
  | .number _, c => continuesNumber c
  | .operator ['*'], c => c == '*'
  | _, _ => false

theorem scan_cons {c : Char} {r s : List Char} {t : Token} (hc : c ≠ ' ')
    (h : scanToken c r = some (t, s)) : scan (c :: r) = (scan s).map (t :: ·) := by
  rw [scan, if_neg hc]
  split
  · rename_i h'
    rw [h] at h'
    cases h'
  · rename_i h'
    rw [h] at h'
    cases h'
    rfl

/-- The characters that tokens besides words start with. -/
def marks : List Char :=
  ['(', ')', ',', '+', '-', '/', '*']

theorem mark_facts {c : Char} (h : c ∈ marks) :
    c.isDigit = false ∧ startsName c = false ∧ isBlank c = false ∧
      c ∉ ['.', '#', '\'', '"', ':', ' '] := by
  have hm : (marks.all fun c => !(c.isDigit || startsName c || isBlank c ||
      List.contains ['.', '#', '\'', '"', ':', ' '] c)) = true := by decide +kernel
  have := List.all_eq_true.1 hm c h
  simp only [Bool.not_eq_true', Bool.or_eq_false_iff] at this
  exact ⟨this.1.1.1, this.1.1.2, this.1.2, by simpa using this.2⟩

theorem scanToken_mark {c : Char} {r : List Char} (h : c ∈ marks) :
    scanToken c r = scanMark c r := by
  obtain ⟨hd, hs, -, hn⟩ := mark_facts h
  have hp : c ≠ '.' := fun he => hn (by simp [he])
  simp [scanToken, hd, hp, hs]

theorem scan_mark {c : Char} {r s : List Char} {t : Token} (hc : c ∈ marks)
    (h : scanMark c r = some (t, s)) : scan (c :: r) = (scan s).map (t :: ·) := by
  obtain ⟨-, -, -, hn⟩ := mark_facts hc
  exact scan_cons (fun he => hn (by simp [he])) ((scanToken_mark hc).trans h)

theorem scan_written {t : Token} {rest : List Char} (h : Written t)
    (hr : Ends (runsOn t) rest) : scan (t.text ++ rest) = (scan rest).map (t :: ·) := by
  cases h with
  | @name c s hc hs =>
    obtain ⟨ht, hd⟩ := Ends.cut (p := continuesName) hs hr
    have hpoint : c ≠ '.' := by
      rintro rfl
      revert hc
      decide +kernel
    have hblank : c ≠ ' ' := by
      rintro rfl
      exact absurd (not_blank_of_startsName hc) (by decide)
    have hn : (c.isDigit || (c = '.' && startsWithDigit (s ++ rest))) = false := by
      simp [not_digit_of_startsName hc, hpoint]
    refine scan_cons hblank ?_
    simp [scanToken, hn, hc, ht, hd]
  | @number c s hc hs =>
    obtain ⟨ht, hd⟩ := Ends.cut (p := continuesNumber) hs hr
    have hn : (c.isDigit || (c = '.' && startsWithDigit (s ++ rest))) = true := by
      rcases hc with h | ⟨rfl, h⟩
      · simp [h]
      · cases s with
        | nil => cases h
        | cons d s => simpa [startsWithDigit] using h
    refine scan_cons ?_ ?_
    · rintro rfl
      simp at hc
    · simp only [scanToken, List.append_eq]
      rw [if_pos hn, ht, hd]
  | sign o => cases o <;> exact scan_mark (by simp [marks]) rfl
  | ratio o =>
    cases o with
    | times =>
      refine scan_mark (by simp [marks]) ?_
      cases rest with
      | nil => rfl
      | cons d rest =>
        have hd : d ≠ '*' := by simpa [runsOn, Ratio.token] using hr d rfl
        simp [scanMark, hd]
    | per => exact scan_mark (by simp [marks]) rfl
  | power => exact scan_mark (by simp [marks]) rfl
  | opening => exact scan_mark (by simp [marks]) rfl
  | closing => exact scan_mark (by simp [marks]) rfl
  | comma => exact scan_mark (by simp [marks]) rfl

/-- What stands right behind a word or an operator that is no sign. -/
theorem mark_of_not_spaced {t u : Token} {sign : Bool} (hu : Written u)
    (hs : spaced t sign u = false)
    (ht : (∃ s, t = .name s) ∨ (∃ s, t = .number s) ∨ (∃ s, t = .operator s) ∧ sign = false) :
    u = .closing .round ∨ u = .comma ∨ u = .opening .round ∧ t.takesBracket = true := by
  cases hu with
  | closing => exact .inl rfl
  | comma => exact .inr (.inl rfl)
  | opening =>
    refine .inr (.inr ⟨rfl, ?_⟩)
    rcases ht with ⟨s, rfl⟩ | ⟨s, rfl⟩ | ⟨⟨s, rfl⟩, rfl⟩
    · rfl
    · cases hs
    · simp [spaced, Token.takesBracket] at hs
  | sign o => cases o <;> rcases ht with ⟨s, rfl⟩ | ⟨s, rfl⟩ | ⟨⟨s, rfl⟩, rfl⟩ <;> cases hs
  | ratio o => cases o <;> rcases ht with ⟨s, rfl⟩ | ⟨s, rfl⟩ | ⟨⟨s, rfl⟩, rfl⟩ <;> cases hs
  | _ => rcases ht with ⟨s, rfl⟩ | ⟨s, rfl⟩ | ⟨⟨s, rfl⟩, rfl⟩ <;> cases hs

theorem not_continuesName {c : Char} (h : c ∈ [' ', '(', ')', ',']) :
    continuesName c = false := by
  have hm : ([' ', '(', ')', ','].all fun c => !continuesName c) = true := by decide +kernel
  simpa using List.all_eq_true.1 hm c h

theorem not_continuesNumber {c : Char} (h : c ∈ [' ', ')', ',']) :
    continuesNumber c = false := by
  have hm : ([' ', ')', ','].all fun c => !continuesNumber c) = true := by decide
  simpa using List.all_eq_true.1 hm c h

/-- Between two tokens without a blank, the first is over where the second starts. -/
theorem ends_of_not_spaced {t u : Token} {sign : Bool} (ht : Written t) (hu : Written u)
    (hsign : sign = true → isPlusOrMinus t = true) (hs : spaced t sign u = false)
    (rest : List Char) : Ends (runsOn t) (u.text ++ rest) := by
  cases ht with
  | name =>
    rcases mark_of_not_spaced hu hs (.inl ⟨_, rfl⟩) with rfl | rfl | ⟨rfl, -⟩
    · exact .cons (not_continuesName (by simp))
    · exact .cons (not_continuesName (by simp))
    · exact .cons (not_continuesName (by simp))
  | number =>
    rcases mark_of_not_spaced hu hs (.inr (.inl ⟨_, rfl⟩)) with rfl | rfl | ⟨-, hb⟩
    · exact .cons (not_continuesNumber (by simp))
    · exact .cons (not_continuesNumber (by simp))
    · cases hb
  | ratio o =>
    cases o with
    | per => exact fun _ _ => rfl
    | times =>
      have hf : sign = false := by
        rw [Bool.eq_false_iff]
        exact fun h => absurd (hsign h) (by decide)
      rcases mark_of_not_spaced hu hs (.inr (.inr ⟨⟨_, rfl⟩, hf⟩)) with rfl | rfl | ⟨-, hb⟩
      · exact .cons rfl
      · exact .cons rfl
      · cases hb
  | sign o => cases o <;> exact fun _ _ => rfl
  | _ => exact fun _ _ => rfl

theorem ends_blank {t : Token} (ht : Written t) (rest : List Char) :
    Ends (runsOn t) (' ' :: rest) := by
  cases ht with
  | name => exact .cons (not_continuesName (by simp))
  | number => exact .cons (not_continuesNumber (by simp))
  | ratio o => cases o <;> exact .cons rfl
  | sign o => cases o <;> exact .cons rfl
  | _ => exact .cons rfl

/-- The tokens behind one that is already read. -/
theorem scan_printFrom {before : Token} {sign : Bool} {ts : List Token} (hb : Written before)
    (hsign : sign = true → isPlusOrMinus before = true) (ht : ∀ t ∈ ts, Written t) :
    Ends (runsOn before) (printFrom before sign ts) ∧ scan (printFrom before sign ts) = some ts := by
  induction ts generalizing before sign with
  | nil => exact ⟨.nil _, by simp [printFrom, scan]⟩
  | cons t ts ih =>
    have hw := ht t (by simp)
    have hnext : isSign (some before) t = true → isPlusOrMinus t = true := by
      intro h
      simp only [isSign, Bool.and_eq_true] at h
      exact h.1
    obtain ⟨he, hr⟩ := ih hw hnext (fun u hu => ht u (List.mem_cons_of_mem _ hu))
    have hscan := scan_written hw he
    rw [hr, Option.map_some] at hscan
    cases hs : spaced before sign t with
    | true =>
      have hp : printFrom before sign (t :: ts) =
          ' ' :: (t.text ++ printFrom t (isSign (some before) t) ts) := by
        simp [printFrom, hs]
      rw [hp]
      exact ⟨ends_blank hb _, by rw [scan, if_pos rfl, hscan]⟩
    | false =>
      have hp : printFrom before sign (t :: ts) =
          t.text ++ printFrom t (isSign (some before) t) ts := by
        simp [printFrom, hs]
      rw [hp]
      exact ⟨ends_of_not_spaced hb hw hsign hs _, hscan⟩

theorem scan_print {ts : List Token} (ht : ∀ t ∈ ts, Written t) : scan (print ts) = some ts := by
  cases ts with
  | nil => simp [print, scan]
  | cons t ts =>
    have hw := ht t (by simp)
    have hsign : isSign none t = true → isPlusOrMinus t = true := by
      intro h
      simp only [isSign, Bool.and_eq_true] at h
      exact h.1
    obtain ⟨he, hr⟩ := scan_printFrom hw hsign (fun u hu => ht u (List.mem_cons_of_mem _ hu))
    rw [print, scan_written hw he, hr, Option.map_some]

theorem visible_of_all {cs : List Char} (h : (!cs.isEmpty && cs.all fun c => !isBlank c) = true) :
    cs ≠ [] ∧ ∀ c ∈ cs, isBlank c = false := by
  simpa using h

theorem Written.text_visible {t : Token} (h : Written t) :
    t.text ≠ [] ∧ ∀ c ∈ t.text, isBlank c = false := by
  cases h with
  | @name c s hc hs =>
    refine ⟨by simp [Token.text], fun d hd => ?_⟩
    rcases List.mem_cons.1 hd with rfl | hd
    · exact not_blank_of_startsName hc
    · have h := hs d hd
      simp only [continuesName, Bool.or_eq_true, decide_eq_true_eq] at h
      rcases h with rfl | h
      · decide
      · exact not_blank_of_continue h
  | @number c s hc hs =>
    refine ⟨by simp [Token.text], fun d hd => ?_⟩
    rcases List.mem_cons.1 hd with rfl | hd
    · rcases hc with h | ⟨rfl, -⟩
      · exact not_blank_of_digit h
      · decide
    · have h := hs d hd
      simp only [continuesNumber, Bool.or_eq_true, decide_eq_true_eq] at h
      rcases h with h | rfl
      · exact not_blank_of_digit h
      · decide
  | sign o => cases o <;> exact visible_of_all (by decide)
  | ratio o => cases o <;> exact visible_of_all (by decide)
  | _ => exact visible_of_all (by decide)

theorem takeToken_mark {c : Char} {r : List Char} (h : c ∈ marks) :
    takeToken c r =
      match opening? c with
      | some b => (.opening b, r)
      | none =>
        match closing? c with
        | some b => (.closing b, r)
        | none =>
          if c = ',' then (.comma, r) else (.operator (takeOperator c r).1, (takeOperator c r).2) := by
  obtain ⟨hd, hs, -, hn⟩ := mark_facts h
  simp only [List.mem_cons, List.not_mem_nil, or_false, not_or] at hn
  obtain ⟨h1, h2, h3, h4, h5, -⟩ := hn
  cases ho : opening? c with
  | some b => simp [takeToken, hd, hs, h1, h2, h3, h4, ho]
  | none =>
    cases hc : closing? c with
    | some b => simp [takeToken, hd, hs, h1, h2, h3, h4, ho, hc]
    | none => simp [takeToken, hd, hs, h1, h2, h3, h4, h5, ho, hc]

theorem lex_mark {c : Char} {r s : List Char} {t : Token} (hc : c ∈ marks)
    (h : takeToken c r = (t, s)) : lex (c :: r) = t :: lex s := by
  obtain ⟨-, -, hb, -⟩ := mark_facts hc
  rw [lex_cons hb, h]

/-- The lexer and the reader of arithmetic agree on what the characters of a token are. -/
theorem Written.stands {t : Token} (h : Written t) : Stands t.text [t] := by
  obtain ⟨hne, hv⟩ := h.text_visible
  refine ⟨?_, ?_, ?_⟩
  · cases ht : t.text with
    | nil => exact absurd ht hne
    | cons c r => exact ⟨c, r, rfl, hv c (by simp [ht])⟩
  · intro hn
    exact absurd (hv _ hn) (by decide)
  · intro rest hrest
    cases h with
    | name hc hs => exact lex_name hc hs (hrest.ends (not_continuesName (by simp)))
    | number hc hs =>
      exact lex_number hc hs (hrest.ends (not_continuesNumber (by simp))) (hrest.ends rfl)
    | opening => exact lex_mark (by simp [marks]) (takeToken_mark (by simp [marks]))
    | closing => exact lex_mark (by simp [marks]) (takeToken_mark (by simp [marks]))
    | comma => exact lex_mark (by simp [marks]) (takeToken_mark (by simp [marks]))
    | power => exact lex_mark (by simp [marks]) (takeToken_mark (by simp [marks]))
    | sign o =>
      cases o <;> rcases hrest with rfl | ⟨r, rfl⟩ <;>
        exact lex_mark (by simp [marks]) (takeToken_mark (by simp [marks]))
    | ratio o =>
      cases o <;> rcases hrest with rfl | ⟨r, rfl⟩ <;>
        exact lex_mark (by simp [marks]) (takeToken_mark (by simp [marks]))

/-- The normal form of a line says what the line says. -/
theorem read_normalize {css : List (List Char)} {ts : List Token} {a : Tree} (h : Says css ts)
    (hp : Parses .sum ts a) :
    normalize (List.intercalate [' '] css) ≠ [] ∧
      (scan (normalize (List.intercalate [' '] css))).bind readTokens = some a := by
  have hs : Parses .sum (strip (Code.collapse none ts)) a := hp.regroup (normal_unwraps ts)
  have hne : css ≠ [] := by
    rintro rfl
    cases h
    exact hp.ne_nil rfl
  have htrim : trimEnd (print (strip (Code.collapse none ts))) =
      print (strip (Code.collapse none ts)) :=
    trimEnd_print [] hs.ne_nil fun t ht => (hs.written t ht).text_visible
  rw [normalize_intercalate h hne, htrim]
  refine ⟨fun he => ?_, by rw [scan_print hs.written]; exact readTokens_of_parses hs⟩
  have hscan := scan_print hs.written
  rw [he, scan, Option.some.injEq] at hscan
  exact hs.ne_nil hscan.symm

end Arithmetic

end Kinetics

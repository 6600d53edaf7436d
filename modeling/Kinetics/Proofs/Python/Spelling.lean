import Kinetics.Proofs.Arithmetic.Spelling
import Kinetics.Proofs.Code.Normal
import Kinetics.Proofs.Python.Derivation

/-!
# Kinetics.Proofs.Python.Spelling

Expressions as lines of text. `Spells` says how the language writes tokens: blanks stand between
them, and none of them could be longer. The lexer finds these tokens (`lex_of_spells`), and the
printer writes tokens that way (`spells_print`), so the normal form of an expression is an
expression with the same tree (`expresses_normal`).
-/

namespace Kinetics

namespace Python

open Arithmetic (Sign isName isIdentifier)
open Code Text

/-- The blanks that the language knows within a line. -/
def isSpace (c : Char) : Bool :=
  c == ' ' || c == '\t' || c == '\x0c'

/-- The characters with which a token would go on. -/
def runsOn : Token → Char → Bool
  | .name _, c => continuesName c
  | .number _, c => continuesName c
  | .operator s, c => Joint.all.any fun o => o.token.text == s ++ [c]
  | _, _ => false

/-- The line is the tokens with blanks around them. -/
inductive Spells : List Char → List Token → Prop where
  | nil : Spells [] []
  | blank {c : Char} {cs : List Char} {ts : List Token} : isSpace c = true → Spells cs ts →
      Spells (c :: cs) ts
  | token {cs : List Char} {ts : List Token} (t : Token) : Ends (runsOn t) cs → Spells cs ts →
      Spells (t.text ++ cs) (t :: ts)

/-- What may be called and subscripted: anything but a number. -/
def Tree.isCallee : Tree → Bool
  | .numeral _ => false
  | _ => true

/-- One line of code that is the expression. -/
def Expresses (code : String) (a : Tree) : Prop :=
  ∃ ts, Spells code.toList ts ∧ Parses Tree.isCallee (.content false) ts a

/-- The tokens of expressions. -/
inductive Word : Token → Prop where
  | name {w : List Char} : isPath w = true → Word (.name w)
  | number {w : List Char} : isNumeral w = true → Word (.number w)
  | joint (o : Joint) : Word o.token
  | opening (b : Bracket) : Word (.opening b)
  | closing (b : Bracket) : Word (.closing b)

section Words

variable {callee : Tree → Bool} {r : Role} {ts us : List Token} {a : Tree} {t : Token}
  {w cs rest : List Char} {c : Char}

theorem word_sign (s : Sign) : Word s.token := by
  cases s with
  | plus => exact .joint .plus
  | minus => exact .joint .minus

theorem words_brackets (b : Bracket) (h : ∀ t ∈ ts, Word t) : ∀ t ∈ inBrackets b ts, Word t := by
  simpa [inBrackets, or_imp, forall_and] using ⟨.opening b, h, .closing b⟩

theorem words_around (o : Joint) (h : ∀ t ∈ ts, Word t) (g : ∀ t ∈ us, Word t) :
    ∀ t ∈ ts ++ o.token :: us, Word t := by
  simpa [or_imp, forall_and] using ⟨h, .joint o, g⟩

theorem Parses.words (h : Parses callee r ts a) : ∀ t ∈ ts, Word t := by
  induction h with
  | name hw => simpa using Word.name hw
  | numeral hw => simpa using Word.number hw
  | group _ ih => exact words_brackets .round ih
  | call _ _ _ ihf iha => exact List.forall_mem_append.2 ⟨ihf, words_brackets .round iha⟩
  | subscript _ _ _ ihf iha => exact List.forall_mem_append.2 ⟨ihf, words_brackets .square iha⟩
  | primary _ ih => exact ih
  | power _ _ iha ihb => exact words_around .power iha ihb
  | signed s _ ih => exact List.forall_mem_cons.2 ⟨word_sign s, ih⟩
  | tighter _ ih => exact ih
  | joined o _ _ _ _ iha ihb => exact words_around o iha ihb
  | part _ ih => exact ih
  | item _ _ ih => exact ih
  | slice _ _ iha ihb => exact words_around .colon iha ihb
  | stepped _ _ _ iha ihb ihc => exact words_around .colon iha (words_around .colon ihb ihc)
  | first _ ih => exact ih
  | next _ _ iha ihb => exact words_around .comma iha ihb
  | content _ ih => exact ih
  | trailing _ ih => exact words_around .comma ih fun _ h => nomatch h
  | inside _ ih => exact ih
  | _ => exact fun _ h => nomatch h

theorem name_chars (h : isName w = true) :
    ∃ c s, w = c :: s ∧ startsName c = true ∧ ∀ d ∈ s, continuesName d = true :=
  (Arithmetic.written_name h).word

theorem continuesName_of_startsName (h : startsName c = true) : continuesName c = true := by
  simp only [startsName, Bool.or_eq_true, decide_eq_true_eq] at h
  rcases h with rfl | h
  · decide +kernel
  · simp [continuesName, isIdentifierContinue_of_start h]

/-- Names with dots between them start and go on as a name does. -/
theorem path_chars (h : isPath w = true) :
    ∃ c s, w = c :: s ∧ startsName c = true ∧ ∀ d ∈ s, continuesName d = true := by
  have hparts (ws : List (List Char)) (hne : ws ≠ []) (h : ∀ w ∈ ws, isName w = true) :
      ∃ c s, List.intercalate ['.'] ws = c :: s ∧ startsName c = true ∧
        ∀ d ∈ s, continuesName d = true := by
    induction ws with
    | nil => exact absurd rfl hne
    | cons v ws ih =>
      obtain ⟨c, s, rfl, hc, hs⟩ := name_chars (h v (by simp))
      cases ws with
      | nil => exact ⟨c, s, by simp [List.intercalate], hc, hs⟩
      | cons u ws =>
        obtain ⟨d, r, hr, hd, hcont⟩ := ih (by simp) fun w hw => h w (List.mem_cons_of_mem _ hw)
        refine ⟨c, s ++ '.' :: d :: r, ?_, hc, ?_⟩
        · rw [← hr]
          simp [List.intercalate]
        · simp only [List.forall_mem_append, List.forall_mem_cons]
          exact ⟨hs, by decide, continuesName_of_startsName hd, hcont⟩
  have hjoin : List.intercalate ['.'] (w.splitOn '.') = w := List.intercalate_splitOn '.'
  rw [← hjoin]
  exact hparts _ (List.splitOn_ne_nil '.' w) (List.all_eq_true.1 h)

/-- Characters that a number of the lexer starts with. -/
def StartsNumber (c : Char) (s : List Char) : Prop :=
  c.isDigit = true ∨ c = '.' ∧ startsWithDigit s = true

theorem decimal_chars (h : isDecimal w = true) :
    ∃ c s, w = c :: s ∧ StartsNumber c s ∧ ∀ d ∈ s, continuesNumber d = true := by
  have hcut := List.takeWhile_append_dropWhile (p := Char.isDigit) (l := w)
  have hdigits : ∀ d ∈ w.takeWhile Char.isDigit, d.isDigit = true :=
    List.all_eq_true.1 List.all_takeWhile
  have hnum {d : Char} (hd : d.isDigit = true) : continuesNumber d = true := by
    simp [continuesNumber, hd]
  unfold isDecimal at h
  generalize w.takeWhile Char.isDigit = whole at h hcut hdigits
  split at h
  · rename_i hdrop
    rw [hdrop, List.append_nil] at hcut
    subst hcut
    cases whole with
    | nil => cases h
    | cons c s =>
      have hall := List.forall_mem_cons.1 hdigits
      exact ⟨c, s, rfl, .inl hall.1, fun d hd => hnum (hall.2 d hd)⟩
  · rename_i r hdrop
    rw [hdrop] at hcut
    subst hcut
    simp only [Bool.and_eq_true, List.all_eq_true, Bool.not_eq_true', Bool.and_eq_false_iff,
      List.isEmpty_eq_false_iff] at h
    cases whole with
    | nil =>
      refine ⟨'.', r, rfl, .inr ⟨rfl, ?_⟩, fun d hd => hnum (h.1 d hd)⟩
      cases r with
      | nil => simp at h
      | cons d r => exact h.1 d (by simp)
    | cons c s =>
      have hall := List.forall_mem_cons.1 hdigits
      refine ⟨c, s ++ '.' :: r, rfl, .inl hall.1, ?_⟩
      simp only [List.forall_mem_append, List.forall_mem_cons]
      exact ⟨fun d hd => hnum (hall.2 d hd), rfl, fun d hd => hnum (h.1 d hd)⟩
  · cases h

/-- A mantissa and perhaps an exponent. -/
theorem numeral_chars (h : isNumeral w = true) : ∃ c s e, w = c :: (s ++ e) ∧ StartsNumber c s ∧
    (∀ d ∈ s, continuesNumber d = true) ∧
    (e = [] ∨ ∃ m r, e = m :: r ∧ marksExponent m = true ∧ isExponent r = true) := by
  have hcut := List.takeWhile_append_dropWhile (p := (!marksExponent ·)) (l := w)
  unfold isNumeral at h
  split at h
  · simp only [Bool.and_eq_true] at h
    obtain ⟨c, s, rfl, hc, hs⟩ := decimal_chars h.1
    exact ⟨c, s, [], by simp, hc, hs, .inl rfl⟩
  · rename_i m r hdrop
    simp only [Bool.and_eq_true] at h
    obtain ⟨c, s, hw, hc, hs⟩ := decimal_chars h.1
    have hm : marksExponent m = true := by
      have := List.head?_dropWhile_not (!marksExponent ·) w
      simpa [hdrop] using this
    rw [hdrop, hw] at hcut
    exact ⟨c, s, m :: r, hcut.symm, hc, hs, .inr ⟨m, r, rfl, hm, h.2⟩⟩

theorem takeExponent_none (h : Ends continuesName rest) : takeExponent rest = ([], rest) := by
  cases rest with
  | nil => rfl
  | cons c rest =>
    have hc : ¬(c = 'e' || c = 'E') = true := by
      intro he
      have hn := h c rfl
      simp only [Bool.or_eq_true, decide_eq_true_eq] at he
      rcases he with rfl | rfl <;> exact absurd hn (by decide +kernel)
    simp only [takeExponent, if_neg hc]

theorem continuesName_of_digit (h : c.isDigit = true) : continuesName c = true := by
  obtain ⟨r, hr, hc⟩ := inRanges_iff.1 (inRanges_of_digit h)
  have hcont : inRanges continueRanges c = true :=
    inRanges_iff.2 ⟨(0x30, 0x39), .head _, List.mem_singleton.1 hr ▸ hc⟩
  have : isIdentifierContinue c = true := (Bool.or_eq_true _ _).mpr (.inr hcont)
  simp [continuesName, this]

theorem ends_of_imp {p q : Char → Bool} (h : Ends p rest) (hq : ∀ c, q c = true → p c = true) :
    Ends q rest := by
  intro c hc
  cases hqc : q c with
  | false => rfl
  | true => exact absurd (hq c hqc) (by simp [h c hc])

/-- The digits of an exponent are taken, and no more. -/
theorem takeExponent_some {m : Char} {r : List Char} (hm : marksExponent m = true)
    (hr : isExponent r = true) (h : Ends continuesName rest) :
    takeExponent (m :: (r ++ rest)) = (m :: r, rest) := by
  have hm : (m = 'e' || m = 'E') = true := by simpa [marksExponent] using hm
  have hend : Ends Char.isDigit rest := ends_of_imp h fun c => continuesName_of_digit
  -- the sign is taken, then the digits
  have hdigits {sign digits : List Char} (hs : takeSign (r ++ rest) = (sign, digits ++ rest))
      (hr : r = sign ++ digits) (hd : (!digits.isEmpty && digits.all Char.isDigit) = true) :
      takeExponent (m :: (r ++ rest)) = (m :: r, rest) := by
    simp only [Bool.and_eq_true, Bool.not_eq_true', List.isEmpty_eq_false_iff, List.all_eq_true]
      at hd
    obtain ⟨htake, hdrop⟩ := hend.cut hd.2
    have hstart : startsWithDigit (digits ++ rest) = true := by
      cases digits with
      | nil => exact absurd rfl hd.1
      | cons d ds => exact hd.2 d (by simp)
    simp only [takeExponent, hm, hs, hstart, htake, hdrop, if_true]
    rw [hr]
  unfold isExponent at hr
  split at hr
  · exact hdigits rfl rfl hr
  · exact hdigits rfl rfl hr
  · rename_i hplus hminus
    have hs : takeSign (r ++ rest) = ([], r ++ rest) := by
      cases r with
      | nil => cases hr
      | cons d r =>
        unfold takeSign
        split
        · rename_i he
          exact absurd (List.cons.inj he).1 fun hd => hplus r (by rw [hd])
        · rename_i he
          exact absurd (List.cons.inj he).1 fun hd => hminus r (by rw [hd])
        · rfl
    exact hdigits hs rfl hr

theorem lex_numeral (hw : isNumeral w = true) (h : Ends continuesName rest) :
    lex (w ++ rest) = .number w :: lex rest := by
  obtain ⟨c, s, e, rfl, hc, hs, he⟩ := numeral_chars hw
  have hcomment : c ≠ '#' := by
    rintro rfl
    rcases hc with hc | hc
    · cases hc
    · exact absurd hc.1 (by decide)
  have hblank : isBlank c = false := by
    rcases hc with hc | ⟨rfl, -⟩
    · exact not_blank_of_digit hc
    · decide
  have hexp : Ends continuesNumber (e ++ rest) ∧ takeExponent (e ++ rest) = (e, rest) := by
    rcases he with rfl | ⟨m, r, rfl, hm, hr⟩
    · refine ⟨ends_of_imp h fun d hd => ?_, takeExponent_none h⟩
      simp only [continuesNumber, Bool.or_eq_true, decide_eq_true_eq] at hd
      rcases hd with hd | rfl
      · exact continuesName_of_digit hd
      · decide
    · refine ⟨.cons ?_, takeExponent_some hm hr h⟩
      simp only [marksExponent, Bool.or_eq_true, beq_iff_eq] at hm
      rcases hm with rfl | rfl <;> rfl
  have hnumber : (c.isDigit || (c = '.' && startsWithDigit (s ++ (e ++ rest)))) = true := by
    rcases hc with hc | ⟨rfl, hc⟩
    · simp [hc]
    · cases s with
      | nil => cases hc
      | cons d s => simpa [startsWithDigit] using hc
  obtain ⟨ht, hd⟩ := hexp.1.cut hs
  rw [List.cons_append, List.append_assoc, lex_cons hblank, takeToken, if_neg hcomment,
    if_pos hnumber]
  simp only [ht, hd, hexp.2]

/-- A character of the list starts none of the tokens that have many characters. -/
theorem mark_of_mem {cs : List Char}
    (h : (cs.all fun c => !opensText c && !c.isDigit && !startsName c && !isBlank c && c != '.') = true)
    (hc : c ∈ cs) : Code.Marks c ∧ isBlank c = false ∧ c ≠ '.' := by
  have := List.all_eq_true.1 h c hc
  simp only [Bool.and_eq_true, Bool.not_eq_true', bne_iff_ne, ne_eq] at this
  exact ⟨⟨this.1.1.1.1, this.1.1.1.2, this.1.1.2⟩, this.1.2, this.2⟩

/-- The first characters of the tokens besides names and numbers. -/
def firstMarks : List Char :=
  ['*', '/', '+', '-', '<', '>', '=', '!', ':', ',', '(', ')', '[', ']', '{', '}']

theorem mark_first (hc : c ∈ firstMarks) : Code.Marks c ∧ isBlank c = false ∧ c ≠ '.' :=
  mark_of_mem (by decide +kernel) hc

theorem lex_first (hc : c ∈ firstMarks) {u : List Char}
    (h : markToken c (u ++ rest) = (t, rest)) : lex (c :: (u ++ rest)) = t :: lex rest := by
  obtain ⟨hm, hb, hp⟩ := mark_first hc
  rw [lex_cons hb, hm.takeToken fun he => absurd he hp, h]

/-- The pairs of the lexer are joints of the language. -/
theorem pair_joint (c d : Char) (h : pairOperators.contains [c, d] = true) :
    (Joint.all.any fun o => o.token.text == [c] ++ [d]) = true := by
  have hpairs : (pairOperators.all fun p => Joint.all.any fun o => o.token.text == p) = true := by
    decide
  exact List.all_eq_true.1 hpairs [c, d] (by simpa using h)

theorem takeOperator_single (h : Ends (runsOn (.operator [c])) rest) :
    takeOperator c rest = ([c], rest) := by
  cases rest with
  | nil => rfl
  | cons d r =>
    have hn : ¬pairOperators.contains [c, d] = true := fun hp => by
      have hd : runsOn (.operator [c]) d = false := h d rfl
      rw [runsOn, pair_joint c d hp] at hd
      cases hd
    rw [takeOperator, if_neg hn]

theorem lex_joint (o : Joint) (h : Ends (runsOn o.token) rest) :
    lex (o.token.text ++ rest) = o.token :: lex rest := by
  have hsingle {c : Char} (hc : c ∈ ['*', '/', '+', '-', '<', '>'])
      (h : Ends (runsOn (.operator [c])) rest) : lex (c :: rest) = .operator [c] :: lex rest := by
    have ho := takeOperator_single h
    refine lex_first (u := []) (List.mem_append_left _ hc) ?_
    simp only [List.mem_cons, List.not_mem_nil, or_false] at hc
    rcases hc with rfl | rfl | rfl | rfl | rfl | rfl <;>
      (simp only [List.nil_append, markToken, ho]; rfl)
  cases o with
  | power => exact lex_first (u := ['*']) (by decide) rfl
  | floor => exact lex_first (u := ['/']) (by decide) rfl
  | atMost => exact lex_first (u := ['=']) (by decide) rfl
  | atLeast => exact lex_first (u := ['=']) (by decide) rfl
  | equal => exact lex_first (u := ['=']) (by decide) rfl
  | unequal => exact lex_first (u := ['=']) (by decide) rfl
  | colon => exact lex_first (u := []) (by decide) rfl
  | comma => exact lex_first (u := []) (by decide) rfl
  | _ => exact hsingle (by decide) h

/-- The lexer finds a token of the language at the front of a line. -/
theorem lex_word (hw : Word t) (h : Ends (runsOn t) rest) :
    lex (t.text ++ rest) = t :: lex rest := by
  cases hw with
  | name hw =>
    obtain ⟨c, s, rfl, hc, hs⟩ := path_chars hw
    exact lex_name hc hs h
  | number hw => exact lex_numeral hw h
  | joint o => exact lex_joint o h
  | opening b => cases b <;> exact lex_first (u := []) (by decide) rfl
  | closing b => cases b <;> exact lex_first (u := []) (by decide) rfl

theorem blank_of_space (h : isSpace c = true) : isBlank c = true := by
  simp only [isSpace, Bool.or_eq_true, beq_iff_eq] at h
  rcases h with (rfl | rfl) | rfl <;> decide

/-- The lexer finds the tokens that a line is written with. -/
theorem lex_of_spells (h : Spells cs ts) (hw : ∀ t ∈ ts, Word t) : lex cs = ts := by
  induction h with
  | nil => rw [lex]
  | blank hc _ ih => rw [lex, if_pos (blank_of_space hc), ih hw]
  | token t he _ ih =>
    have hw := List.forall_mem_cons.1 hw
    rw [lex_word hw.1 he, ih hw.2]

theorem operator_runsOn {s : List Char} (h : runsOn (.operator s) c = true) :
    ∃ o : Joint, o.token.text = s ++ [c] := by
  obtain ⟨o, -, ho⟩ := List.any_eq_true.1 h
  exact ⟨o, beq_iff_eq.1 ho⟩

/-- No token of the language goes on with a blank, a bracket or a separator. -/
theorem runsOn_stop (hw : Word t) (hc : isStop c = true) : runsOn t c = false := by
  have hn := (stop_of_isStop hc).name
  have hother := (stop_of_isStop hc).other
  have hop {s : List Char} (hs : s ≠ []) : runsOn (.operator s) c = false := by
    rw [Bool.eq_false_iff]
    intro h
    obtain ⟨o, ho⟩ := operator_runsOn h
    have hlast : some c = o.token.text.getLast? := by simp [ho]
    have hlong : 1 < o.token.text.length := by
      have := List.length_pos_iff.2 hs
      simp only [ho, List.length_append, List.length_singleton]
      omega
    clear ho h
    cases o <;> simp_all [Joint.token, Token.text, goingOn]
  cases hw with
  | name => exact hn
  | number => exact hn
  | joint o => cases o <;> first | rfl | exact hop (List.cons_ne_nil _ _)
  | _ => rfl

theorem runsOn_free (h : isFree t = true) : runsOn t c = false := by
  have hsign {d : Char} (hd : d = '+' ∨ d = '-') : runsOn (.operator [d]) c = false := by
    rw [Bool.eq_false_iff]
    intro h
    obtain ⟨o, ho⟩ := operator_runsOn h
    rcases hd with rfl | rfl <;> cases o <;> simp_all [Joint.token, Token.text]
  cases t with
  | operator s =>
    simp only [isFree, isPlusOrMinus, Bool.or_eq_true, beq_iff_eq] at h
    rcases h with rfl | rfl
    · exact hsign (.inr rfl)
    · exact hsign (.inl rfl)
  | opening b => rfl
  | colon => rfl
  | _ => cases h

theorem spells_printFrom {before : Token} {sign : Bool} (hb : Word before)
    (hsign : sign = true → isPlusOrMinus before = true) (ht : ∀ t ∈ ts, Word t) :
    Spells (before.text ++ printFrom before sign ts) (before :: ts) := by
  induction ts generalizing before sign with
  | nil => exact .token before (.nil _) .nil
  | cons t ts ih =>
    have hnext : isSign (some before) t = true → isPlusOrMinus t = true := by
      intro h
      simp only [isSign, Bool.and_eq_true] at h
      exact h.1
    have ht := List.forall_mem_cons.1 ht
    have hrest := ih ht.1 hnext ht.2
    rw [printFrom, List.append_assoc]
    cases hs : spaced before sign t with
    | true => exact .token before (.cons (runsOn_stop hb (by decide))) (.blank rfl hrest)
    | false =>
      refine .token before (fun c hc => ?_) hrest
      rcases free_of_not_spaced hsign hs with hf | hp
      · exact runsOn_free hf
      · obtain ⟨b, htext, hstop⟩ := text_punctuation hp
        simp only [Bool.false_eq_true, if_false, List.nil_append, htext, List.cons_append,
          List.head?_cons, Option.some.injEq] at hc
        exact hc ▸ runsOn_stop hb hstop

/-- The printer writes tokens as the language does. -/
theorem spells_print (ht : ∀ t ∈ ts, Word t) : Spells (print ts) ts := by
  cases ts with
  | nil => exact .nil
  | cons t ts =>
    have ht := List.forall_mem_cons.1 ht
    refine spells_printFrom ht.1 (fun h => ?_) ht.2
    simp only [isSign, Bool.and_eq_true] at h
    exact h.1

theorem exponent_visible (h : isExponent w = true) : ∀ c ∈ w, isBlank c = false := by
  have hdigits {ds : List Char} (h : (!ds.isEmpty && ds.all Char.isDigit) = true) :
      ∀ c ∈ ds, isBlank c = false := fun c hc =>
    not_blank_of_digit (List.all_eq_true.1 (Bool.and_eq_true_iff.1 h).2 c hc)
  unfold isExponent at h
  split at h
  · exact List.forall_mem_cons.2 ⟨by decide, hdigits h⟩
  · exact List.forall_mem_cons.2 ⟨by decide, hdigits h⟩
  · exact hdigits h

theorem visible_word (hw : Word t) : t.text ≠ [] ∧ ∀ c ∈ t.text, isBlank c = false := by
  have hclosed {cs : List Char} (h : (!cs.isEmpty && cs.all fun c => !isBlank c) = true) :
      cs ≠ [] ∧ ∀ c ∈ cs, isBlank c = false := by
    simpa using h
  cases hw with
  | name hw =>
    obtain ⟨c, s, rfl, hc, hs⟩ := path_chars hw
    exact ⟨List.cons_ne_nil _ _, List.forall_mem_cons.2
      ⟨not_blank_of_startsName hc, fun d hd => not_blank_of_continuesName (hs d hd)⟩⟩
  | number hw =>
    obtain ⟨c, s, e, rfl, hc, hs, he⟩ := numeral_chars hw
    have hnum : ∀ d ∈ s, isBlank d = false := by
      intro d hd
      have := hs d hd
      simp only [continuesNumber, Bool.or_eq_true, decide_eq_true_eq] at this
      rcases this with h | rfl
      · exact not_blank_of_digit h
      · decide
    have hfirst : isBlank c = false := by
      rcases hc with hc | ⟨rfl, -⟩
      · exact not_blank_of_digit hc
      · decide
    refine ⟨List.cons_ne_nil _ _, List.forall_mem_cons.2 ⟨hfirst, List.forall_mem_append.2 ⟨hnum, ?_⟩⟩⟩
    rcases he with rfl | ⟨m, r, rfl, hm, hr⟩
    · exact List.forall_mem_nil _
    · refine List.forall_mem_cons.2 ⟨?_, exponent_visible hr⟩
      simp only [marksExponent, Bool.or_eq_true, beq_iff_eq] at hm
      rcases hm with rfl | rfl <;> decide
  | joint o => cases o <;> exact hclosed (by decide)
  | opening b => cases b <;> exact hclosed (by decide)
  | closing b => cases b <;> exact hclosed (by decide)

end Words

section Normal

variable {cs : List Char} {ts : List Token} {code : String} {a b : Tree} {c : Char}

/-- The characters of a line are blanks of the language or belong to its tokens. -/
theorem mem_of_spells (h : Spells cs ts) (hc : c ∈ cs) : isSpace c = true ∨ ∃ t ∈ ts, c ∈ t.text := by
  induction h with
  | nil => cases hc
  | blank hb _ ih =>
    rcases List.mem_cons.1 hc with rfl | hc
    · exact .inl hb
    · exact ih hc
  | token t _ _ ih =>
    rcases List.mem_append.1 hc with hc | hc
    · exact .inr ⟨t, by simp, hc⟩
    · exact (ih hc).imp_right fun ⟨u, hu, huc⟩ => ⟨u, List.mem_cons_of_mem t hu, huc⟩

theorem spells_blanks {bs : List Char} (hb : ∀ c ∈ bs, isSpace c = true) (h : Spells cs ts) :
    Spells (bs ++ cs) ts := by
  induction bs with
  | nil => exact h
  | cons b bs ih =>
    have hb := List.forall_mem_cons.1 hb
    exact .blank hb.1 (ih hb.2)

theorem spaces_of_spells (h : Spells cs ts) (hw : ∀ t ∈ ts, Word t) (hc : c ∈ cs)
    (hb : isBlank c = true) : isSpace c = true := by
  refine (mem_of_spells h hc).resolve_right fun ⟨t, ht, htc⟩ => ?_
  simp [(visible_word (hw t ht)).2 c htc] at hb

theorem spells_normal (h : Spells cs ts) (hw : ∀ t ∈ ts, Word t) (hne : ts ≠ []) :
    Spells (normalize cs) (strip (collapse none ts)) := by
  have hline : '\n' ∉ cs := fun hn => by
    have := spaces_of_spells h hw hn (by decide)
    exact absurd this (by decide)
  have hnormal : ∀ t ∈ strip (collapse none ts), Word t := fun t ht =>
    hw t ((normal_sublist ts).subset ht)
  have hnil : ¬(lex cs).isEmpty = true := by simpa [lex_of_spells h hw] using hne
  rw [normalize_line hline, normalizeLine_eq, if_neg hnil, lex_of_spells h hw,
    trimEnd_print _ (normal_ne_nil hne) fun t ht => visible_word (hnormal t ht)]
  refine spells_blanks (fun c hc => ?_) (spells_print hnormal)
  exact spaces_of_spells h hw ((List.takeWhile_sublist _).subset hc)
    (List.all_eq_true.1 (blank_indentation cs) c hc)

theorem Parses.ne_nil {ts : List Token} (h : Parses Tree.isCallee (.content false) ts a) : ts ≠ [] := by
  rintro rfl
  cases h.read

/-- A line is one expression at most. -/
theorem expresses_unique (h : Expresses code a) (g : Expresses code b) : a = b := by
  obtain ⟨ts, hs, hp⟩ := h
  obtain ⟨us, hu, hq⟩ := g
  have he : ts = us := by rw [← lex_of_spells hs hp.words, lex_of_spells hu hq.words]
  exact Option.some.inj (hp.read.symm.trans (he ▸ hq.read))

/-- The normal form of an expression is an expression, with that tree and no other. -/
theorem expresses_normal (h : Expresses code a) : Expresses (normalizeString code) b ↔ b = a := by
  obtain ⟨ts, hs, hp⟩ := h
  have hread : read Tree.isCallee (strip (collapse none ts)) = some a := by
    rw [read_normal (fun _ => rfl) (matched_of_read hp.read), hp.read]
  have hspells : Spells (normalizeString code).toList (strip (collapse none ts)) := by
    rw [normalizeString, String.toList_ofList]
    exact spells_normal hs hp.words hp.ne_nil
  have hnormal : Expresses (normalizeString code) a := ⟨_, hspells, read_iff.1 hread⟩
  constructor
  · exact fun hb => expresses_unique hb hnormal
  · rintro rfl
    exact hnormal

/-- Neither the argument nor the factor needs its parentheses. -/
theorem expresses_normal_call :
    Expresses "f((a)) * (2)" (.joined .times (.call (.name ['f']) (.name ['a'])) (.numeral ['2'])) ∧
      Expresses (normalizeString "f((a)) * (2)")
        (.joined .times (.call (.name ['f']) (.name ['a'])) (.numeral ['2'])) := by
  have hlist : "f((a)) * (2)".toList =
      ['f', '(', '(', 'a', ')', ')', ' ', '*', ' ', '(', '2', ')'] := by
    simp
  have hspells : Spells "f((a)) * (2)".toList
      [.name ['f'], .opening .round, .opening .round, .name ['a'], .closing .round,
        .closing .round, .operator ['*'], .opening .round, .number ['2'], .closing .round] := by
    rw [hlist]
    have hopen {cs : List Char} (b : Bracket) : Ends (runsOn (.opening b)) cs := fun _ _ => rfl
    have hclose {cs : List Char} (b : Bracket) : Ends (runsOn (.closing b)) cs := fun _ _ => rfl
    have hfactor : Spells ['(', '2', ')'] [.opening .round, .number ['2'], .closing .round] :=
      .token (.opening .round) (hopen _) (.token (.number ['2']) (.cons (by decide +kernel))
        (.token (.closing .round) (hclose _) .nil))
    exact .token (.name ['f']) (.cons (by decide +kernel)) (.token (.opening .round) (hopen _)
      (.token (.opening .round) (hopen _) (.token (.name ['a']) (.cons (by decide +kernel))
        (.token (.closing .round) (hclose _) (.token (.closing .round) (hclose _) (.blank rfl
          (.token (.operator ['*']) (.cons (by decide)) (.blank rfl hfactor))))))))
  have h : Expresses "f((a)) * (2)"
      (.joined .times (.call (.name ['f']) (.name ['a'])) (.numeral ['2'])) :=
    ⟨_, hspells, read_iff.1 (by decide +kernel)⟩
  exact ⟨h, (expresses_normal h).2 rfl⟩

end Normal

end Python

end Kinetics

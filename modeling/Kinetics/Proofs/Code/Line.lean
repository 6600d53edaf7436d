import Kinetics.Proofs.Code.Lexeme
import Kinetics.Proofs.Code.Regrouping
import Mathlib.Data.List.TakeWhile

/-!
# Kinetics.Proofs.Code.Line

How a line is cut into tokens. What stands before a blank or a bracket is cut into the same tokens
whatever follows (`lex_append`), unless a string literal or a comment goes over it. A literal is
over at its closing quote; without one it takes all that is left, and so does each beginning of it
(`takeQuoted_within`).
-/

namespace Kinetics

namespace Code

open Text

/-- The characters that start a string literal or a comment. -/
def opensText (c : Char) : Bool :=
  c == '\'' || c == '"' || c == '#'

/-- No string literal and no comment. -/
def Plain (cs : List Char) : Prop :=
  ∀ c ∈ cs, opensText c = false

def punctuation : List Char :=
  ['(', ')', '[', ']', '{', '}', ',', ':']

/-- The characters with which no token goes on. -/
def isStop (c : Char) : Bool :=
  isBlank c || punctuation.contains c

section Append

variable {b c : Char} {cs r rest : List Char}

theorem takeWhile_append_stop {p : Char → Bool} (cs rest : List Char) (h : p b = false) :
    (cs ++ b :: rest).takeWhile p = cs.takeWhile p ∧
      (cs ++ b :: rest).dropWhile p = cs.dropWhile p ++ b :: rest := by
  induction cs with
  | nil => simp [h]
  | cons c cs ih =>
    simp only [List.cons_append, List.takeWhile_cons, List.dropWhile_cons]
    cases p c with
    | false => exact ⟨rfl, rfl⟩
    | true => exact ⟨by simp [ih.1], by simp [ih.2]⟩

/-- Characters that go on with a token besides those of names and digits. -/
def goingOn : List Char :=
  ['.', '+', '-', 'e', 'E', '*', '=', '/']

structure Stop (b : Char) : Prop where
  digit : b.isDigit = false
  name : continuesName b = false
  other : b ∉ goingOn

theorem not_blank_of_continuesName (h : continuesName b = true) : isBlank b = false := by
  simp only [continuesName, Bool.or_eq_true, decide_eq_true_eq] at h
  rcases h with rfl | h
  · decide
  · exact not_blank_of_continue h

theorem stop_of_isStop (h : isStop b = true) : Stop b := by
  have hp : (punctuation.all fun b => !b.isDigit && !continuesName b && !goingOn.contains b) =
      true := by decide +kernel
  have hg : (goingOn.all fun b => !isBlank b) = true := by decide
  simp only [isStop, Bool.or_eq_true] at h
  rcases h with h | h
  · refine ⟨?_, ?_, fun hb => ?_⟩
    · rw [Bool.eq_false_iff]
      intro hd
      simp [not_blank_of_digit hd] at h
    · rw [Bool.eq_false_iff]
      intro hn
      simp [not_blank_of_continuesName hn] at h
    · have := List.all_eq_true.1 hg b hb
      simp [h] at this
  · have := List.all_eq_true.1 hp b (by simpa using h)
    simp only [Bool.and_eq_true, Bool.not_eq_true'] at this
    exact ⟨this.1.1, this.1.2, by simpa using this.2⟩

theorem Stop.number (h : Stop b) : continuesNumber b = false := by
  have ho := h.other
  simp only [goingOn, List.mem_cons, not_or] at ho
  simp [continuesNumber, h.digit, ho.1]

theorem Stop.pair (h : Stop b) (c : Char) : pairOperators.contains [c, b] = false := by
  have ho := h.other
  simp only [goingOn, List.mem_cons, not_or] at ho
  simp [pairOperators, ho.2.2.2.2.2.1, ho.2.2.2.2.2.2.1, ho.2.2.2.2.2.2.2.1]

theorem startsWithDigit_append (hb : Stop b) :
    startsWithDigit (cs ++ b :: rest) = startsWithDigit cs := by
  cases cs with
  | nil => exact hb.digit
  | cons c cs => rfl

theorem takeSign_stop (hb : Stop b) :
    takeSign (cs ++ b :: rest) = ((takeSign cs).1, (takeSign cs).2 ++ b :: rest) := by
  have ho := hb.other
  simp only [goingOn, List.mem_cons, not_or] at ho
  cases cs with
  | nil =>
    rw [List.nil_append, takeSign]
    · rfl
    · exact fun r hr => ho.2.1 (List.cons.inj hr).1
    · exact fun r hr => ho.2.2.1 (List.cons.inj hr).1
  | cons c cs =>
    rw [List.cons_append]
    unfold takeSign
    split <;> simp_all

theorem takeExponent_stop (hb : Stop b) :
    takeExponent (cs ++ b :: rest) = ((takeExponent cs).1, (takeExponent cs).2 ++ b :: rest) := by
  have ho := hb.other
  simp only [goingOn, List.mem_cons, not_or] at ho
  cases cs with
  | nil => simp [takeExponent, ho]
  | cons c cs =>
    simp only [List.cons_append, takeExponent, takeSign_stop hb, startsWithDigit_append hb]
    obtain ⟨ht, hd⟩ := takeWhile_append_stop (takeSign cs).2 rest hb.digit
    split
    · split
      · simp [ht, hd]
      · rfl
    · rfl

theorem takeOperator_stop (hb : Stop b) :
    takeOperator c (cs ++ b :: rest) = ((takeOperator c cs).1, (takeOperator c cs).2 ++ b :: rest) := by
  cases cs with
  | nil =>
    have hn := hb.pair c
    simp only [List.nil_append, takeOperator, hn, Bool.false_eq_true, if_false]
  | cons d cs =>
    simp only [List.cons_append, takeOperator]
    split <;> rfl

/-- The first token of a text does not depend on what follows behind a blank or a bracket. -/
theorem takeToken_stop (hb : Stop b) (hc : opensText c = false) :
    takeToken c (r ++ b :: rest) = ((takeToken c r).1, (takeToken c r).2 ++ b :: rest) := by
  simp only [opensText, Bool.or_eq_false_iff, beq_eq_false_iff_ne] at hc
  obtain ⟨⟨hq, hqq⟩, hcomment⟩ := hc
  obtain ⟨hname, hname'⟩ := takeWhile_append_stop r rest hb.name
  obtain ⟨hnum, hnum'⟩ := takeWhile_append_stop r rest hb.number
  have hquote : ¬(c = '\'' || c = '"') = true := by simp [hq, hqq]
  simp only [takeToken, startsWithDigit_append hb, hname, hname', hnum, hnum', takeExponent_stop hb,
    takeOperator_stop hb, if_neg hcomment, if_neg hquote]
  split
  · rfl
  · split
    · rfl
    · split
      · rfl
      · split
        · rfl
        · split
          · rfl
          · split <;> rfl

theorem takeToken_suffix (c : Char) (r : List Char) : (takeToken c r).2 <:+ r := by
  have h := takeToken_append c r
  have hne := takeToken_text_ne_nil c r
  generalize (takeToken c r).1.text = u at h hne
  cases u with
  | nil => exact absurd rfl hne
  | cons d u =>
    simp only [List.cons_append, List.cons.injEq] at h
    exact ⟨u, h.2⟩

theorem Plain.suffix (h : Plain cs) (hr : r <:+ cs) : Plain r :=
  fun c hc => h c (hr.subset hc)

/-- What stands before a blank or a bracket is cut into tokens of its own. -/
theorem lex_append (hp : Plain cs) (hb : isStop b = true) :
    lex (cs ++ b :: rest) = lex cs ++ lex (b :: rest) := by
  fun_induction lex cs with
  | case1 => rfl
  | case2 c r hc ih =>
    rw [List.cons_append, lex, if_pos hc, ih (hp.suffix (List.suffix_cons c r))]
  | case3 c r hc ih =>
    have hr := hp.suffix ((takeToken_suffix c r).trans (List.suffix_cons c r))
    have ht : takeToken c (r ++ b :: rest) = ((takeToken c r).1, (takeToken c r).2 ++ b :: rest) :=
      takeToken_stop (stop_of_isStop hb) (hp c (by simp))
    rw [List.cons_append, lex_cons (by simpa using hc), ht, ih hr, List.cons_append]

/-- A token that is no literal and no comment goes over no character that stops the others. -/
theorem takeToken_none {p : Char → Bool} (hp : ∀ d, p d = true → Stop d) (h : opensText c = false)
    (hc : p c = false) (r : List Char) : ∀ d ∈ (takeToken c r).1.text, p d = false := by
  have hcut := List.takeWhile_append_dropWhile (p := fun d => !p d) (l := r)
  have hnone : ∀ d ∈ c :: r.takeWhile fun d => !p d, p d = false :=
    List.forall_mem_cons.2
      ⟨hc, fun d hd => by simpa using List.all_eq_true.1 List.all_takeWhile d hd⟩
  have hpre (s : List Char) : (takeToken c s).1.text <+: c :: s :=
    ⟨_, takeToken_append c s⟩
  cases hr : r.dropWhile fun d => !p d with
  | nil =>
    rw [hr, List.append_nil] at hcut
    rw [hcut] at hnone
    exact fun d hd => hnone d ((hpre r).subset hd)
  | cons q s =>
    have hq : p q = true := by
      have := List.head?_dropWhile_not (fun d => !p d) r
      simpa [hr] using this
    rw [hr] at hcut
    rw [← hcut, takeToken_stop (hp q hq) h]
    exact fun d hd => hnone d ((hpre _).subset hd)

end Append

section Text

variable {c q : Char} {cs as r rest : List Char} {t : Token}

/-- A string literal or a comment. -/
def isText : Token → Bool
  | .quoted _ => true
  | .comment _ => true
  | _ => false

theorem stop_of_opensText (h : opensText c = true) : Stop c := by
  simp only [opensText, Bool.or_eq_true, beq_iff_eq] at h
  rcases h with (rfl | rfl) | rfl <;> exact ⟨rfl, by decide +kernel, by decide⟩

theorem takeToken_comment (r : List Char) : takeToken '#' r = (.comment ('#' :: r), []) := by
  simp [takeToken]

theorem takeToken_quote (h : c = '\'' ∨ c = '"') (r : List Char) :
    takeToken c r = (.quoted (c :: (takeQuoted c r).1), (takeQuoted c r).2) := by
  have h1 : startsName '\'' = false := by decide +kernel
  have h2 : startsName '"' = false := by decide +kernel
  rcases h with rfl | rfl
  · simp [takeToken, h1]
  · simp [takeToken, h2]

theorem isText_takeToken (c : Char) (r : List Char) : isText (takeToken c r).1 = opensText c := by
  cases hc : opensText c with
  | true =>
    simp only [opensText, Bool.or_eq_true, beq_iff_eq] at hc
    rcases hc with hc | rfl
    · rw [takeToken_quote hc]
      rfl
    · rw [takeToken_comment]
      rfl
  | false =>
    simp only [opensText, Bool.or_eq_false_iff, beq_eq_false_iff_ne] at hc
    obtain ⟨⟨hq, hqq⟩, hcomment⟩ := hc
    simp only [takeToken, if_neg hcomment, hq, hqq, decide_false, Bool.or_self, Bool.false_eq_true,
      if_false]
    repeat' split
    all_goals rfl

/-- Only a literal or a comment goes over a quote. -/
theorem plain_takeToken (h : opensText c = false) (r : List Char) :
    Plain (takeToken c r).1.text :=
  takeToken_none (fun _ => stop_of_opensText) h h r

theorem takeQuoted_quote (q : Char) (r : List Char) : takeQuoted q (q :: r) = ([q], r) := by
  cases r <;> simp [takeQuoted]

theorem takeQuoted_escape (hq : '\\' ≠ q) (d : Char) (r : List Char) :
    takeQuoted q ('\\' :: d :: r) = ('\\' :: d :: (takeQuoted q r).1, (takeQuoted q r).2) := by
  simp [takeQuoted, hq]

theorem takeQuoted_other (hq : c ≠ q) (hb : c ≠ '\\') (r : List Char) :
    takeQuoted q (c :: r) = (c :: (takeQuoted q r).1, (takeQuoted q r).2) := by
  cases r <;> simp [takeQuoted, hq, hb]

/-- Each beginning of what a literal takes is taken whole. -/
theorem takeQuoted_within (h : as <+: (takeQuoted q cs).1) : takeQuoted q as = (as, []) := by
  revert as
  fun_induction takeQuoted q cs with
  | case1 =>
    intro as h
    obtain rfl := List.prefix_nil.1 h
    rfl
  | case2 r =>
    intro as h
    rcases List.prefix_cons_iff.1 h with rfl | ⟨as, rfl, ha⟩
    · rfl
    · obtain rfl := List.prefix_nil.1 ha
      exact takeQuoted_quote q []
  | case3 hq =>
    intro as h
    rcases List.prefix_cons_iff.1 h with rfl | ⟨as, rfl, ha⟩
    · rfl
    · obtain rfl := List.prefix_nil.1 ha
      simp [takeQuoted]
  | case4 d r p hq =>
    rename_i ih
    intro as h
    -- the backslash alone, or with the character it takes along
    rcases List.prefix_cons_iff.1 h with rfl | ⟨as, rfl, ha⟩
    · rfl
    · rcases List.prefix_cons_iff.1 ha with rfl | ⟨bs, rfl, hb⟩
      · simp [takeQuoted]
      · rw [takeQuoted_escape hq, ih hb]
  | case5 c r hq hb p =>
    rename_i ih
    intro as h
    rcases List.prefix_cons_iff.1 h with rfl | ⟨as, rfl, ha⟩
    · rfl
    · rw [takeQuoted_other hq hb, ih ha]

/-- A literal that leaves something is over whatever follows. -/
theorem takeQuoted_closed (h : (takeQuoted q cs).2 ≠ []) (rest : List Char) :
    takeQuoted q ((takeQuoted q cs).1 ++ rest) = ((takeQuoted q cs).1, rest) := by
  fun_induction takeQuoted q cs with
  | case1 => exact absurd rfl h
  | case2 r => exact takeQuoted_quote q rest
  | case3 => exact absurd rfl h
  | case4 d r p hq ih => rw [List.cons_append, List.cons_append, takeQuoted_escape hq, ih h]
  | case5 c r hq hb p ih => rw [List.cons_append, takeQuoted_other hq hb, ih h]

theorem takeQuoted_last (h : (takeQuoted q cs).2 ≠ []) :
    ∃ init, (takeQuoted q cs).1 = init ++ [q] := by
  fun_induction takeQuoted q cs with
  | case1 => exact absurd rfl h
  | case2 r => exact ⟨[], rfl⟩
  | case3 => exact absurd rfl h
  | case4 d r p hq ih =>
    obtain ⟨init, hi⟩ := ih h
    exact ⟨'\\' :: d :: init, by simp [p, hi]⟩
  | case5 c r hq hb p ih =>
    obtain ⟨init, hi⟩ := ih h
    exact ⟨c :: init, by simp [p, hi]⟩

end Text

end Code

end Kinetics

import Kinetics.Proofs.Code.Normal

/-!
# Kinetics.Proofs.Code.Count

The normal form adds and drops nothing but blanks and parentheses. Every other character is in it
as often as in the text (`countP_normalize`), so two codes of which one has such a character more
are not the same.
-/

namespace Kinetics

namespace Code

open Text

/-- Characters other than blanks, brackets and separators. -/
def Unstopped (p : Char → Bool) : Prop :=
  ∀ c, p c = true → isStop c = false

variable {p : Char → Bool} {b c : Char} {bs cs : List Char} {ts us : List Token}

section Stop

theorem Unstopped.stop (hp : Unstopped p) (h : isStop c = true) : p c = false := by
  rw [Bool.eq_false_iff]
  intro hc
  simp [hp c hc] at h

theorem Unstopped.countP_stop (hp : Unstopped p) (h : isStop c = true) : [c].countP p = 0 := by
  rw [List.countP_singleton, hp.stop h]
  rfl

theorem Unstopped.countP_blanks (hp : Unstopped p) (h : allBlank bs = true) : bs.countP p = 0 := by
  rw [List.countP_eq_zero]
  intro c hc
  have hb : isBlank c = true := List.all_eq_true.1 h c hc
  simp [hp.stop (c := c) (by simp [isStop, hb])]

theorem Unstopped.countP_trimEnd (hp : Unstopped p) (cs : List Char) :
    (trimEnd cs).countP p = cs.countP p := by
  obtain ⟨blanks, hb, he⟩ := trimEnd_append_blanks cs
  have hz := hp.countP_blanks (List.all_eq_true.2 hb)
  rw [← congrArg (List.countP p) he, List.countP_append, hz, Nat.add_zero]

end Stop

section Tokens

/-- How often such characters are in tokens. -/
def countTokens (p : Char → Bool) (ts : List Token) : Nat :=
  (ts.flatMap Token.text).countP p

theorem Unstopped.countTokens_lex (hp : Unstopped p) (cs : List Char) :
    countTokens p (lex cs) = cs.countP p := by
  fun_induction lex cs with
  | case1 => rfl
  | case2 c r hc ih =>
    have hz := hp.stop (c := c) (by simp [isStop, hc])
    rw [ih, List.countP_cons_of_neg (by simp [hz])]
  | case3 c r hc ih =>
    have happ := congrArg (List.countP p) (takeToken_append c r)
    rw [List.countP_append] at happ
    simp only [countTokens, List.flatMap_cons, List.countP_append] at ih ⊢
    omega

theorem Unstopped.countTokens_unwraps (hp : Unstopped p) (h : Unwraps ts us) :
    countTokens p us = countTokens p ts := by
  obtain ⟨c, -, -, -, -⟩ := h
  have ho : (Token.opening .round).text.countP p = 0 := hp.countP_stop (by decide)
  have hc : (Token.closing c).text.countP p = 0 := hp.countP_stop (by cases c <;> decide)
  simp [countTokens, ho, hc]

theorem Unstopped.countTokens_normal (hp : Unstopped p) (ts : List Token) :
    countTokens p (strip (collapse none ts)) = countTokens p ts := by
  have h := normal_unwraps ts
  generalize strip (collapse none ts) = us at h
  induction h with
  | refl => rfl
  | tail _ h ih => rw [hp.countTokens_unwraps h, ih]

theorem Unstopped.countP_print (hp : Unstopped p) (ts : List Token) :
    (print ts).countP p = countTokens p ts := by
  have hblank : p ' ' = false := hp.stop (by decide)
  have hfrom (before : Token) (sign : Bool) (us : List Token) :
      (printFrom before sign us).countP p = countTokens p us := by
    induction us generalizing before sign with
    | nil => rfl
    | cons u us ih =>
      rw [printFrom, List.countP_append, List.countP_append, ih, countTokens, countTokens,
        List.flatMap_cons, List.countP_append]
      split <;> simp [hblank]
  cases ts with
  | nil => rfl
  | cons t ts =>
    rw [print, List.countP_append, hfrom, countTokens, countTokens, List.flatMap_cons,
      List.countP_append]

end Tokens

section Lines

theorem Unstopped.countP_normalizeLine (hp : Unstopped p) (cs : List Char) :
    (normalizeLine cs).countP p = cs.countP p := by
  have hlex := hp.countTokens_lex cs
  rw [normalizeLine_eq]
  split
  · rename_i he
    rw [List.isEmpty_iff.1 he] at hlex
    exact hlex
  · rw [List.countP_append, hp.countP_blanks (blank_indentation cs), hp.countP_print,
      hp.countTokens_normal, hlex, Nat.zero_add]

theorem Unstopped.countP_joinLines (hp : Unstopped p) (ls : List (List Char)) :
    (joinLines ls).countP p = ls.flatten.countP p := by
  have hfeed : p '\n' = false := hp.stop (by decide)
  have hrest (ls : List (List Char)) :
      (ls.flatMap fun l => '\n' :: l).countP p = ls.flatten.countP p := by
    induction ls with
    | nil => rfl
    | cons l ls ih =>
      rw [List.flatMap_cons, List.countP_append, List.countP_cons_of_neg (by simp [hfeed]), ih,
        List.flatten_cons, List.countP_append]
  cases ls with
  | nil => rfl
  | cons l ls =>
    rw [joinLines_cons, List.countP_append, hrest, List.flatten_cons, List.countP_append]

theorem Unstopped.countP_linesFrom (hp : Unstopped p) (gathered cs : List Char) :
    (linesFrom gathered cs).flatten.countP p = gathered.countP p + cs.countP p := by
  induction cs generalizing gathered with
  | nil =>
    rw [linesFrom]
    split
    · rename_i he
      simp [List.isEmpty_iff.1 he]
    · simp
  | cons c r ih =>
    rw [linesFrom]
    split
    · rename_i hc
      obtain ⟨blanks, hb, he⟩ := dropReturn_suffix gathered
      have hdrop := congrArg (List.countP p) he
      rw [List.countP_append, hp.countP_blanks hb] at hdrop
      have hfeed : p c = false := hp.stop (by rw [hc]; decide)
      rw [List.flatten_cons, List.countP_append, ih, List.countP_reverse,
        List.countP_cons_of_neg (by simp [hfeed])]
      simp only [List.countP_nil]
      omega
    · rw [ih, List.countP_cons, List.countP_cons]
      omega

/-- A text and its normal form have the same characters besides blanks and brackets. -/
theorem Unstopped.countP_normalize (hp : Unstopped p) (cs : List Char) :
    (normalize cs).countP p = cs.countP p := by
  have hlines (ls : List (List Char)) :
      (ls.map normalizeLine).flatten.countP p = ls.flatten.countP p := by
    induction ls with
    | nil => rfl
    | cons l ls ih =>
      rw [List.map_cons, List.flatten_cons, List.countP_append, hp.countP_normalizeLine, ih,
        List.flatten_cons, List.countP_append]
  rw [normalize, hp.countP_trimEnd, hp.countP_joinLines, hlines, lines, hp.countP_linesFrom,
    List.countP_nil, Nat.zero_add]

end Lines

end Code

end Kinetics

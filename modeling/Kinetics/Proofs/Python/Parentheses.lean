import Kinetics.Proofs.Python.Line
import Kinetics.Proofs.Python.Operand

/-!
# Kinetics.Proofs.Python.Parentheses

Parentheses in the code of a formula. The line with them is a line where the one without them is
(`isLine_parenthesized`), so what their tokens say decides whether the two codes have the same value
(`reads_of_follows`).
-/

namespace Kinetics

open Code Text

namespace Python

open Formula (Expression Fragment)

section Line

variable {as bs : List Char} {c : Char} {css dss : List (List Char)} {cs : List Char}

theorem intercalate_around (css : List (List Char)) (cs : List Char) (dss : List (List Char)) :
    List.intercalate [' '] (css ++ cs :: dss) =
      css.flatMap (· ++ [' ']) ++ (cs ++ dss.flatMap (' ' :: ·)) := by
  have hlast (cs : List Char) : List.intercalate [' '] (cs :: dss) =
      cs ++ dss.flatMap (' ' :: ·) := by
    induction dss generalizing cs with
    | nil => simp [List.intercalate]
    | cons ds dss ih => rw [intercalate_cons_cons, ih, List.flatMap_cons, List.cons_append]
  induction css with
  | nil => exact hlast cs
  | cons bs css ih =>
    have hcons : List.intercalate [' '] (bs :: (css ++ cs :: dss)) =
        bs ++ ' ' :: List.intercalate [' '] (css ++ cs :: dss) := by
      cases css <;> exact intercalate_cons_cons _ _ _
    rw [List.cons_append, hcons, ih]
    simp

theorem oneLine_around (hc : isBlank c = false) :
    oneLine (as ++ c :: bs) = true ↔ '\n' ∉ as ∧ oneLine bs = true := by
  have hfeed : c ≠ '\n' := by
    rintro rfl
    exact absurd hc (by decide)
  induction as with
  | nil => simp [oneLine, hfeed]
  | cons a as ih =>
    rw [List.cons_append, oneLine]
    split
    · rename_i ha
      simp [ha, allBlank, hc]
    · rename_i ha
      refine ih.trans ?_
      rw [List.mem_cons, not_or]
      exact ⟨fun h => ⟨⟨Ne.symm ha, h.1⟩, h.2⟩, fun h => ⟨h.1.2, h.2⟩⟩

/-- One line without literals and comments. -/
def IsLine (cs : List Char) : Prop :=
  Plain cs ∧ oneLine cs = true

/-- Parentheses and blanks in front of a closing parenthesis do not matter to a line. -/
theorem IsLine.grouped {as' : List Char} (h : IsLine (as ++ ')' :: bs))
    (ha : ∀ c ∈ as', c ∈ as ∨ c ∈ ['(', ')', ' ']) : IsLine (as' ++ ')' :: bs) := by
  obtain ⟨hp, ho⟩ := h
  rw [oneLine_around (by decide)] at ho
  refine ⟨fun c hc => ?_, (oneLine_around (by decide)).2 ⟨fun hn => ?_, ho.2⟩⟩
  · rcases List.mem_append.1 hc with hc | hc
    · have hplain : ∀ c ∈ ['(', ')', ' '], opensText c = false := by simp [opensText]
      rcases ha c hc with hc | hc
      · exact hp c (List.mem_append_left _ hc)
      · exact hplain c hc
    · exact hp c (List.mem_append_right _ hc)
  · rcases ha _ hn with hn | hn
    · exact ho.1 hn
    · exact absurd hn (by decide)

end Line

section Tokens

variable {us vs before after : List Token} {fs gs : List Fragment}

theorem tokens_append (fs gs : List Fragment) : tokens (fs ++ gs) = tokens fs ++ tokens gs :=
  List.flatMap_append

theorem tokens_cons (f : Fragment) (fs : List Fragment) :
    tokens (f :: fs) = lex (characters f) ++ tokens fs :=
  List.flatMap_cons

theorem lex_opening : lex (characters (.text "(")) = [.opening .round] := by decide +kernel

theorem lex_closing : lex (characters (.text ")")) = [.closing .round] := by decide +kernel

theorem lex_slash : lex (characters (.text "/")) = [Joint.per.token] := by decide +kernel

theorem tokens_parenthesized (fs : List Fragment) :
    tokens (Formula.Node.parenthesized fs) = inBrackets .round (tokens fs) := by
  have hnil : tokens [] = [] := rfl
  rw [Formula.Node.parenthesized, List.cons_append, tokens_cons, tokens_append, tokens_cons, hnil,
    lex_opening, lex_closing]
  rfl

theorem openBrackets_matched (h : Matched us) (cs : List Bracket) :
    openBrackets cs us = some cs :=
  (openBrackets_balanced h.balanced h).2 cs

theorem matched_inBrackets (h : Matched us) : Matched (inBrackets .round us) := by
  rw [Matched, inBrackets, openBrackets, openBrackets_append, openBrackets_matched h]
  rfl

theorem matched_exchange (hu : Matched us) (hv : Matched vs)
    (h : Matched (before ++ (us ++ after))) : Matched (before ++ (vs ++ after)) := by
  rw [Matched, openBrackets_append] at h ⊢
  obtain ⟨cs, hb, h⟩ := Option.bind_eq_some_iff.1 h
  rw [openBrackets_append, openBrackets_matched hu, Option.bind_some] at h
  rw [hb, Option.bind_some, openBrackets_append, openBrackets_matched hv, Option.bind_some, h]

end Tokens

section Value

variable {e e' : Expression} {fs ahead behind : List Fragment}

/-- Two codes are expressions with the same value, or neither is an expression. -/
structure SameValue (c d : String) : Prop where
  left : ∀ a, Reads c a → ∃ b, Reads d b ∧ Alike a b
  right : ∀ b, Reads d b → ∃ a, Reads c a ∧ Alike b a

theorem line_around (h : e.fragments = ahead ++ (fs ++ .text ")" :: behind)) :
    line e = ((ahead ++ fs).map characters).flatMap (· ++ [' ']) ++
      ')' :: (behind.map characters).flatMap (' ' :: ·) := by
  have hclose : characters (.text ")") = [')'] := by decide +kernel
  rw [line, h, ← List.append_assoc, List.map_append, List.map_cons, intercalate_around, hclose]
  rfl

/-- Parentheses around a part of a line whose last sign is a parenthesis. -/
theorem isLine_parenthesized (hfs : fs.getLast? = some (.text ")"))
    (h : e.fragments = ahead ++ (fs ++ behind))
    (h' : e'.fragments = ahead ++ (Formula.Node.parenthesized fs ++ behind)) :
    IsLine (line e) ↔ IsLine (line e') := by
  have hopen : characters (.text "(") = ['('] := by decide +kernel
  have hclose : characters (.text ")") = [')'] := by decide +kernel
  obtain ⟨gs, rfl⟩ := List.getLast?_eq_some_iff.1 hfs
  have hl : e.fragments = ahead ++ (gs ++ .text ")" :: behind) := by simp [h]
  have hl' : e'.fragments =
      ahead ++ ((.text "(" :: (gs ++ [Fragment.text ")"])) ++ .text ")" :: behind) := by
    simp [h', Formula.Node.parenthesized]
  rw [line_around hl, line_around hl']
  constructor
  · intro hl
    refine hl.grouped fun c hc => ?_
    simp only [List.map_append, List.map_cons, List.map_nil, List.flatMap_append, List.flatMap_cons,
      List.flatMap_nil, hopen, hclose, List.mem_append, List.mem_cons, List.not_mem_nil] at hc ⊢
    tauto
  · intro hl
    refine hl.grouped fun c hc => .inl ?_
    simp only [List.map_append, List.map_cons, List.map_nil, List.flatMap_append, List.flatMap_cons,
      List.mem_append] at hc ⊢
    tauto

/-- What the tokens of two lines say decides. -/
theorem reads_of_follows (hl : IsLine (line e) → IsLine (line e'))
    (hm : Matched (tokens e.fragments)) (hm' : Matched (tokens e'.fragments))
    (hne : tokens e.fragments ≠ []) (hne' : tokens e'.fragments ≠ [])
    (hf : Follows (tokens e.fragments) (tokens e'.fragments)) {a : Tree} (ha : Reads e.code a) :
    ∃ b, Reads e'.code b ∧ Alike a b := by
  obtain ⟨hp, ho, hr⟩ := (reads_code hm).1 ha
  rw [readOrNought_of_ne_nil hne] at hr
  obtain ⟨b, hb, hab⟩ := hf a hr
  obtain ⟨hp', ho'⟩ := hl ⟨hp, ho⟩
  exact ⟨b, (reads_code hm').2 ⟨hp', ho', by rwa [readOrNought_of_ne_nil hne']⟩, hab⟩

end Value

end Python

end Kinetics

import Kinetics.Proofs.Arithmetic.Grammar
import Kinetics.Proofs.Code.Regrouping

/-!
# Kinetics.Proofs.Arithmetic.Regrouping

Taking redundant parentheses away does not change what a line says. `Parses.unwrap` removes one
pair that groups a term with nothing loose in it; the passes over the tokens are repetitions of
that step, so the line keeps its very tree at any nesting (`Parses.regroup`).
-/

namespace Kinetics

namespace Arithmetic

open Code

namespace Parses

variable {l : Level} {ts us : List Token} {a : Tree}

theorem balanced (h : Parses l ts a) : Balanced ts := by
  induction h with
  | name _ => exact .single rfl
  | numeral _ => exact .single rfl
  | group _ ih => exact ih.wrap _ _
  | call f _ ih => exact (ih.wrap _ _).cons rfl
  | maximum _ _ iha ihb => exact ((iha.append (ihb.cons rfl)).wrap _ _).cons rfl
  | atom _ ih => exact ih
  | power _ _ iha ihb => exact iha.append (ihb.cons rfl)
  | negative _ ih => exact ih.cons rfl
  | factor _ ih => exact ih
  | multiplicative o _ _ iha ihb => exact iha.append (ihb.cons (by cases o <;> rfl))
  | term _ ih => exact ih
  | additive o _ _ iha ihb => exact iha.append (ihb.cons (by cases o <;> rfl))

/-- Without an operator outside brackets, a line is one atom. -/
theorem toAtom (h : Parses .sum ts a) (ht : hasLoose 0 ts = false) : Parses .atom ts a := by
  cases h with
  | additive o h _ =>
    cases o <;> exact absurd ht (by simp [Sign.token, hasLoose_operator _ h.balanced])
  | term h =>
    cases h with
    | multiplicative o h _ =>
      cases o <;> exact absurd ht (by simp [Ratio.token, hasLoose_operator _ h.balanced])
    | factor h =>
      cases h with
      | atom h => exact h
      | power h _ => exact absurd ht (by simp [powerToken, hasLoose_operator _ h.balanced])
      | negative h => exact absurd ht (by simp [Sign.token, hasLoose])

end Parses

section Unwrap

variable {ts us before inside after : List Token} {b c : Bracket}

theorem single_ne_group (t : Token) :
    [t] ≠ before ++ .opening b :: (inside ++ .closing c :: after) := by
  intro h
  have := congrArg List.length h
  simp only [List.length_cons, List.length_nil, List.length_append] at this
  omega

/-- A group in brackets that are not its own lies between them. -/
theorem group_within (ht : Balanced ts) (hi : Balanced inside) (hb : before ≠ [])
    (h : inBrackets ts = before ++ Token.opening b :: (inside ++ Token.closing c :: after)) :
    ∃ l r, before = .opening .round :: l ∧ after = r ++ [Token.closing .round] ∧
      ts = l ++ Token.opening b :: (inside ++ Token.closing c :: r) := by
  cases before with
  | nil => exact absurd rfl hb
  | cons x l =>
    simp only [inBrackets, List.cons_append, List.cons.injEq] at h
    obtain ⟨rfl, h⟩ := h
    obtain ⟨r, hts, hr⟩ := split_within ht hi h
    exact ⟨l, r, rfl, hr, hts⟩

/-- Taking away a pair of parentheses that groups a term without loose operators. -/
theorem Parses.unwrap {l : Level} {a : Tree} (h : Parses l ts a)
    (hi : Balanced inside) (hl : hasLoose 0 inside = false) :
    ∀ {before after}, ts = before ++ .opening .round :: (inside ++ .closing c :: after) →
      Groups before → Parses l (before ++ (inside ++ after)) a := by
  induction h with
  | name _ => exact fun he _ => absurd he (single_ne_group _)
  | numeral _ => exact fun he _ => absurd he (single_ne_group _)
  | @group ts a h ih =>
    intro before after he hg
    by_cases hb : before = []
    · subst hb
      simp only [inBrackets, List.nil_append, List.cons.injEq, true_and] at he
      obtain ⟨rfl, -, rfl⟩ := closing_unique h.balanced hi he
      simpa using h.toAtom hl
    · obtain ⟨l, r, rfl, rfl, hts⟩ := group_within h.balanced hi hb he
      simpa [inBrackets] using Parses.group (ih hts hg.tail)
  | @call ts a f h ih =>
    intro before after he hg
    cases before with
    | nil => simp at he
    | cons x before =>
      simp only [List.cons_append, List.cons.injEq] at he
      obtain ⟨rfl, he⟩ := he
      have hb : before ≠ [] := by
        rintro rfl
        exact absurd (hg _ rfl) (by simp [Token.takesBracket])
      obtain ⟨l, r, rfl, rfl, hts⟩ := group_within h.balanced hi hb he
      simpa [inBrackets] using Parses.call f (ih hts hg.tail.tail)
  | @maximum ts us a b ha hb iha ihb =>
    intro before after he hg
    cases before with
    | nil => simp at he
    | cons x before =>
      simp only [List.cons_append, List.cons.injEq] at he
      obtain ⟨rfl, he⟩ := he
      have hne : before ≠ [] := by
        rintro rfl
        exact absurd (hg _ rfl) (by simp [Token.takesBracket])
      have hbal : Balanced (ts ++ .comma :: us) := ha.balanced.append (hb.balanced.cons rfl)
      obtain ⟨l, r, rfl, rfl, hts⟩ := group_within hbal hi hne he
      -- the pair lies in the first argument or in the second
      rcases split_around ha.balanced rfl hi hts with ⟨r', h', rfl⟩ | ⟨l', rfl, h'⟩
      · simpa [inBrackets] using Parses.maximum (iha h' hg.tail.tail) hb
      · simpa [inBrackets] using Parses.maximum ha (ihb h' hg.tail.tail.right.tail)
  | atom _ ih => exact fun he hg => .atom (ih he hg)
  | @power ts us a b ha hb iha ihb =>
    intro before after he hg
    rcases split_around ha.balanced rfl hi he with ⟨r, h', rfl⟩ | ⟨l, rfl, h'⟩
    · simpa using Parses.power (iha h' hg) hb
    · simpa using Parses.power ha (ihb h' hg.right.tail)
  | @negative ts a h ih =>
    intro before after he hg
    cases before with
    | nil => simp [Sign.token] at he
    | cons x before =>
      simp only [List.cons_append, List.cons.injEq] at he
      obtain ⟨rfl, he⟩ := he
      exact .negative (ih he hg.tail)
  | factor _ ih => exact fun he hg => .factor (ih he hg)
  | @multiplicative ts us a b o ha hb iha ihb =>
    intro before after he hg
    have ho : o.token.turn = 0 := by cases o <;> rfl
    rcases split_around ha.balanced ho hi he with ⟨r, h', rfl⟩ | ⟨l, rfl, h'⟩
    · simpa using Parses.multiplicative o (iha h' hg) hb
    · simpa using Parses.multiplicative o ha (ihb h' hg.right.tail)
  | term _ ih => exact fun he hg => .term (ih he hg)
  | @additive ts us a b o ha hb iha ihb =>
    intro before after he hg
    have ho : o.token.turn = 0 := by cases o <;> rfl
    rcases split_around ha.balanced ho hi he with ⟨r, h', rfl⟩ | ⟨l, rfl, h'⟩
    · simpa using Parses.additive o (iha h' hg) hb
    · simpa using Parses.additive o ha (ihb h' hg.right.tail)

end Unwrap

/-- A line without redundant parentheses says what the line said. -/
theorem Parses.regroup {l : Level} {ts us : List Token} {a : Tree} (h : Parses l ts a)
    (hu : Relation.ReflTransGen Unwraps ts us) : Parses l us a := by
  induction hu with
  | refl => exact h
  | tail _ hs ih =>
    obtain ⟨c, hg, hi, hl, -⟩ := hs
    exact ih.unwrap hi hl rfl hg

end Arithmetic

end Kinetics

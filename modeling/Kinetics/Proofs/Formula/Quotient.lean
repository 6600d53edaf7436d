import Kinetics.Proofs.Formula.Place
import Kinetics.Proofs.Python.Parentheses
import Mathlib.Algebra.Field.Rat

/-!
# Kinetics.Proofs.Formula.Quotient

Fractions in formulas. The code of a fraction has no parentheses of its own, so its grouping is left
to what stands around it. Where that takes no part of it, a fraction in parentheses has the same
value (`compile_fraction`); behind a sign of division it has another one (`fraction_divided`).
-/

namespace Kinetics

namespace Formula

open Python

namespace Node

variable {suffix : String} {a b : Node} {e : Expression}

/-- The code of a fraction. -/
def quotientCode (fa fb : List Fragment) : List Fragment :=
  parenthesized fa ++ .text "/" :: parenthesized fb

theorem tokens_quotientCode (fa fb : List Fragment) :
    tokens (quotientCode fa fb) = Python.quotient (tokens fa) (tokens fb) := by
  rw [quotientCode, tokens_append, tokens_cons, tokens_parenthesized, tokens_parenthesized,
    lex_slash]
  rfl

theorem fragments_fraction_iff {fs : List Fragment} :
    fragments suffix (.fraction a b) = .ok fs ↔ ∃ fa fb, fragments suffix a = .ok fa ∧
      fragments suffix b = .ok fb ∧ fs = quotientCode fa fb := by
  rw [fragments]
  cases fragments suffix a with
  | error e => simp
  | ok fa =>
    cases fragments suffix b with
    | error e => simp
    | ok fb => simp [quotientCode, eq_comm]

/-- A fraction and a fraction in parentheses stand in the same places. -/
theorem agree_fraction (a b : Node) :
    Agree (.fraction a b) (.fenced "(" ")" [.fraction a b]) := by
  have hpeers (a b : Node) : Peers (.fraction a b) (.fenced "(" ")" [.fraction a b]) :=
    ⟨rfl, rfl, rfl, by simp [compoundName, compoundNames], rfl, by simp [skippedTags, skippedAmong]⟩
  refine ⟨hpeers a b, ?_⟩
  simpa [explicit, explicitAll, isSpace] using hpeers a.explicit b.explicit

/-- The code of a fraction, with parentheses around it and without, where it stands apart. -/
theorem sameValue_quotient {fa fb ahead behind : List Fragment} {e e' : Expression}
    (h : Around (quotientCode fa fb) (parenthesized (quotientCode fa fb)) ahead behind e e')
    (hm : Matched (tokens e.fragments)) (ha : Matched (tokens fa)) (hb : Matched (tokens fb))
    (hs : standsApart (tokens ahead) (tokens behind) = true) : SameValue e.code e'.code := by
  have hleft : tokens e.fragments =
      tokens ahead ++ (Python.quotient (tokens fa) (tokens fb) ++ tokens behind) := by
    rw [h.left, tokens_append, tokens_append, tokens_quotientCode]
  have hright : tokens e'.fragments = tokens ahead ++
      (inBrackets .round (Python.quotient (tokens fa) (tokens fb)) ++ tokens behind) := by
    rw [h.right, tokens_append, tokens_append, tokens_parenthesized, tokens_quotientCode]
  have hquotient : Matched (Python.quotient (tokens fa) (tokens fb)) := by
    rw [Matched, Python.quotient, openBrackets_append, openBrackets_matched (matched_inBrackets ha),
      Option.bind_some]
    exact matched_inBrackets hb
  have hm' : Matched (tokens e'.fragments) := by
    rw [hleft] at hm
    rw [hright]
    exact matched_exchange hquotient (matched_inBrackets hquotient) hm
  have hlast : (quotientCode fa fb).getLast? = some (.text ")") :=
    List.getLast?_eq_some_iff.2 ⟨parenthesized fa ++ .text "/" :: .text "(" :: fb, by
      simp [quotientCode, parenthesized]⟩
  have hline : IsLine (line e) ↔ IsLine (line e') := isLine_parenthesized hlast h.left h.right
  have hne : tokens e.fragments ≠ [] := by simp [hleft, Python.quotient, inBrackets]
  have hne' : tokens e'.fragments ≠ [] := by simp [hright, inBrackets]
  obtain ⟨hf, hf'⟩ := follows_quotient ha hb hs
  rw [← hleft, ← hright] at hf hf'
  exact ⟨fun _ => reads_of_follows hline.1 hm hm' hne hne' hf,
    fun _ => reads_of_follows hline.2 hm' hm hne' hne hf'⟩

/-- Parentheses around a fraction, wherever it is in a formula, change nothing but its own code.
They make no difference to the value where nothing around the fraction takes a part of it. -/
theorem compile_fraction {p : Place} (h : (p.fill (.fraction a b)).compile suffix = .ok e) :
    ∃ e', (p.fill (.fenced "(" ")" [.fraction a b])).compile suffix = .ok e' ∧
      e'.skipped = e.skipped ∧
      (p.isNamed (.fraction a b) = true ∧ e' = e ∨
        ∃ fa fb ahead behind, fragments suffix a.explicit = .ok fa ∧
          fragments suffix b.explicit = .ok fb ∧
          Around (quotientCode fa fb) (parenthesized (quotientCode fa fb)) ahead behind e e') ∧
      ∀ fa fb ahead behind,
        Around (quotientCode fa fb) (parenthesized (quotientCode fa fb)) ahead behind e e' →
        Matched (tokens e.fragments) → Matched (tokens fa) → Matched (tokens fb) →
        standsApart (tokens ahead) (tokens behind) = true → SameValue e.code e'.code := by
  have hagree := agree_fraction a b
  have hgrouped : fragments suffix (Node.fenced "(" ")" [.fraction a b]).explicit =
      (fragments suffix (Node.fraction a b).explicit).map parenthesized := by
    rw [explicit_grouped rfl, fragments_grouped]
  cases hf : fragments suffix (Node.fraction a b).explicit with
  | error fault =>
    have heq : fragments suffix (Node.fraction a b).explicit =
        fragments suffix (Node.fenced "(" ")" [.fraction a b]).explicit := by
      rw [hgrouped, hf]
      rfl
    exact ⟨e, compile_fill_eq hagree heq p ▸ h, rfl, .inl ⟨isNamed_of_fault (.refl rfl) hf h, rfl⟩,
      fun _ _ _ _ ha hm hfa hfb hs => sameValue_quotient ha hm hfa hfb hs⟩
  | ok fs =>
    rw [hf] at hgrouped
    obtain ⟨e', he', hskipped, hx⟩ := compile_fill hagree hf hgrouped h
    refine ⟨e', he', hskipped, hx.imp_right ?_,
      fun _ _ _ _ ha hm hfa hfb hs => sameValue_quotient ha hm hfa hfb hs⟩
    rintro ⟨ahead, behind, hx⟩
    rw [explicit] at hf
    obtain ⟨fa, fb, hfa, hfb, rfl⟩ := fragments_fraction_iff.1 hf
    exact ⟨fa, fb, ahead, behind, hfa, hfb, hx⟩

/-- A juxtaposed factor may take the numerator, and a difference goes on behind the fraction. -/
theorem compile_fraction_factor : ∃ e e',
    ((Place.among .row [.identifier "k"] .here [.operator "-", .number "1"]).fill
      (.fraction (.identifier "a") (.identifier "b"))).compile "" = .ok e ∧
    ((Place.among .row [.identifier "k"] .here [.operator "-", .number "1"]).fill
      (.fenced "(" ")" [.fraction (.identifier "a") (.identifier "b")])).compile "" = .ok e' ∧
    e.code = "k * a / b - 1" ∧ e'.code = "k * (a / b) - 1" ∧ SameValue e.code e'.code := by
  have h : ((Place.among .row [.identifier "k"] .here [.operator "-", .number "1"]).fill
      (.fraction (.identifier "a") (.identifier "b"))).compile "" =
        .ok ⟨[Fragment.symbol "k" "", .text "*"] ++
          (quotientCode [.symbol "a" ""] [.symbol "b" ""] ++
            [Fragment.text "-", .text "1"]), []⟩ := by
    decide +kernel
  have h' : ((Place.among .row [.identifier "k"] .here [.operator "-", .number "1"]).fill
      (.fenced "(" ")" [.fraction (.identifier "a") (.identifier "b")])).compile "" =
        .ok ⟨[Fragment.symbol "k" "", .text "*"] ++
          (parenthesized (quotientCode [.symbol "a" ""] [.symbol "b" ""]) ++
            [Fragment.text "-", .text "1"]), []⟩ := by
    decide +kernel
  obtain ⟨e', he', -, -, hvalue⟩ := compile_fraction h
  cases h'.symm.trans he'
  refine ⟨_, _, h, h', by decide +kernel, by decide +kernel,
    hvalue _ _ _ _ ⟨rfl, rfl⟩ ?_ ?_ ?_ (by decide +kernel)⟩ <;>
    (unfold Matched; decide +kernel)

/-- Behind a sign of division the fraction is divided by, part after part. -/
theorem fraction_divided : ∃ e e',
    (Node.row [.identifier "a", .operator "/",
      .fraction (.identifier "b") (.identifier "c")]).compile "" = .ok e ∧
    (Node.row [.identifier "a", .operator "/",
      .fenced "(" ")" [.fraction (.identifier "b") (.identifier "c")]]).compile "" = .ok e' ∧
    e.code = "a / b / c" ∧ e'.code = "a / (b / c)" ∧ ¬SameValue e.code e'.code := by
  have hcode : (Expression.mk ([Fragment.symbol "a" "", .text "/"] ++
      quotientCode [.symbol "b" ""] [.symbol "c" ""]) []).code = "a / b / c" := by decide +kernel
  have hcode' : (Expression.mk ([Fragment.symbol "a" "", .text "/"] ++
      parenthesized (quotientCode [.symbol "b" ""] [.symbol "c" ""])) []).code = "a / (b / c)" := by
    decide +kernel
  refine ⟨_, _, ?_, ?_, hcode, hcode', fun h => ?_⟩
  · decide +kernel
  · decide +kernel
  rw [hcode, hcode'] at h
  have hread : Reads "a / b / c" (.joined .per (.joined .per (.name ['a']) (.name ['b']))
      (.name ['c'])) := by
    unfold Reads
    decide +kernel
  obtain ⟨t, ⟨-, ht⟩, halike⟩ := h.left _ hread
  have hread' : read Tree.mentionsName (Code.lex "a / (b / c)".toList) =
      some (.joined .per (.name ['a']) (.joined .per (.name ['b']) (.name ['c']))) := by
    decide +kernel
  cases hread'.symm.trans ht
  let m : Meaning ℚ := ⟨fun w => if w = ['c'] then 2 else 1, fun _ x _ => x, fun x _ => x,
    fun x _ => x, id, 0⟩
  exact absurd (halike.value ℚ m) (by decide +kernel)

end Node

end Formula

end Kinetics

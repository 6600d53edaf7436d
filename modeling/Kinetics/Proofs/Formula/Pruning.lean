import Kinetics.Proofs.Formula.Pieces
import Kinetics.Proofs.Python.Parentheses
import Mathlib.Algebra.Field.Rat
import Mathlib.Data.List.Flatten

/-!
# Kinetics.Proofs.Formula.Pruning

Pruned formulas. A dropped bracket that goes, with its sign or without, leaves the value that the
formula has with nought in its place, as long as it is a whole term of a sum: `prunesWhole` reads
this off the pieces of the code (`compile_pruned`). The sign of a factor goes as well, with which
the value changes (`pruned_factor`).
-/

namespace Kinetics

namespace Formula

namespace Node

open Code Python

variable {suffix : String} {keep : NameSet → Bool} {n : Node} {ps : List (Piece Fragment)}

section Tokens

/-- The tokens of a piece of code. -/
def pieceTokens : Piece Fragment → List (Piece Token)
  | .both f => (lex (characters f)).map .both
  | .nought => [.nought]
  | .alone s => [.alone s]
  | .signed s => [.signed s]
  | .leading => [.leading]
  | .ahead => [.ahead]

theorem lex_zero : lex (characters marks.zero) = [tokenMarks.zero] := by decide +kernel

theorem lex_sign (s : Arithmetic.Sign) : lex (characters (marks.sign s)) = [tokenMarks.sign s] := by
  cases s <;> decide +kernel

theorem full_pieceTokens (p : Piece Fragment) :
    (pieceTokens p).flatMap (Piece.full tokenMarks) = tokens (p.full marks) := by
  have hopen : lex (characters marks.opening) = [tokenMarks.opening] := lex_opening
  have hclose : lex (characters marks.closing) = [tokenMarks.closing] := lex_closing
  cases p <;> simp [pieceTokens, tokens, Piece.full, List.flatMap_map, hopen, hclose, lex_zero,
    lex_sign]

theorem short_pieceTokens (p : Piece Fragment) :
    (pieceTokens p).flatMap (Piece.short tokenMarks) = tokens (p.short marks) := by
  cases p <;> simp [pieceTokens, tokens, Piece.short, List.flatMap_map, lex_zero]

theorem full_tokens (ps : List (Piece Fragment)) :
    (ps.flatMap pieceTokens).flatMap (Piece.full tokenMarks) = tokens (fullCode ps) := by
  induction ps with
  | nil => rfl
  | cons p ps ih =>
    rw [List.flatMap_cons, List.flatMap_append, full_pieceTokens, ih, fullCode_cons, tokens_append]

theorem short_tokens (ps : List (Piece Fragment)) :
    (ps.flatMap pieceTokens).flatMap (Piece.short tokenMarks) = tokens (shortCode ps) := by
  induction ps with
  | nil => rfl
  | cons p ps ih =>
    rw [List.flatMap_cons, List.flatMap_append, short_pieceTokens, ih, shortCode_cons,
      tokens_append]

theorem shortCode_sublist (ps : List (Piece Fragment)) :
    (shortCode ps).Sublist (fullCode ps) := by
  induction ps with
  | nil => exact .refl _
  | cons p ps ih =>
    rw [shortCode_cons, fullCode_cons]
    refine .append ?_ ih
    cases p <;> simp [Piece.short, Piece.full]

end Tokens

/-- Whether every dropped bracket that goes is a whole term, of which the sign that goes with it is
the binary or the leading one. -/
def prunesWhole (suffix : String) (keep : NameSet → Bool) (n : Node) : Bool :=
  (pieces suffix keep n).any fun ps => Sound none (ps.flatMap pieceTokens)

/-- A line that leaves out what is nought reads as the line that has it. -/
theorem reads_shortCode {e e' : Expression} {a : Tree} (he : e.fragments = fullCode ps)
    (he' : e'.fragments = shortCode ps) (hs : Sound none (ps.flatMap pieceTokens) = true)
    (hm : Matched (tokens e.fragments)) (ha : Reads e.code a) :
    ∃ b, Reads e'.code b ∧ Alike a b := by
  obtain ⟨hp, ho, hr⟩ := (reads_code hm).1 ha
  have hline : (line e').Sublist (line e) := by
    rw [line, line, he, he']
    exact intercalate_sublist ((shortCode_sublist ps).map characters)
  have hplain : Code.Plain (line e') := fun c hc => hp c (hline.subset hc)
  have hone : oneLine (line e') = true := oneLine_sublist hline ho
  by_cases hnil : tokens e.fragments = []
  · -- a formula without code is nought
    have hnil' : tokens e'.fragments = [] := by
      have hsub : (tokens e'.fragments).Sublist (tokens e.fragments) := by
        rw [tokens, tokens, he, he']
        exact (shortCode_sublist ps).flatMap _
      rw [hnil] at hsub
      exact List.sublist_nil.1 hsub
    rw [hnil] at hr
    exact ⟨a, (reads_code (by rw [hnil']; rfl)).2 ⟨hplain, hone, by rwa [hnil']⟩, .refl a⟩
  · rw [readOrNought_of_ne_nil hnil, he, ← full_tokens] at hr
    obtain ⟨b, hb, hab⟩ := read_pieces hs hr
    rw [short_tokens, ← he'] at hb
    refine ⟨b, (reads_code (matched_of_read hb)).2 ⟨hplain, hone, ?_⟩, hab⟩
    rwa [readOrNought_of_ne_nil (ne_nil_of_read hb)]

/-- Where every dropped bracket that goes is a whole term, a pruned formula can be compiled and has
the value of the formula whose dropped brackets are set to nought. -/
theorem compile_pruned {e : Expression} {a : Tree} (hd : Decided keep n)
    (hz : (zeroed keep n).compile suffix = .ok e) (hm : Matched (tokens e.fragments))
    (ha : Reads e.code a) (hw : prunesWhole suffix keep n = true) :
    ∃ p e' b, prune keep n = .ok p ∧ p.result.compile suffix = .ok e' ∧ Reads e'.code b ∧
      Alike a b := by
  obtain ⟨ps, hps, hs⟩ := (Option.any_eq_true _ _).1 hw
  obtain ⟨p, hp⟩ := exists_prune n hd
  have h := divided n hd hps
  have he : e.fragments = fullCode ps := by
    rw [compile, h.full] at hz
    cases hz
    rfl
  have hshort := h.short
  rw [resolved_of_ok hp] at hshort
  have hback : ∃ b, Reads (Expression.mk (shortCode ps) p.result.explicit.skippedTags).code b ∧
      Alike a b := reads_shortCode he rfl hs hm ha
  obtain ⟨b, hb, hab⟩ := hback
  exact ⟨p, _, b, hp, by rw [compile, hshort], hb, hab⟩

section Brackets

variable {children : List Node} {e : Expression}

theorem decided_dropped (h : (Node.row children).compile "" = .ok e)
    (hk : keep e.freeSymbols = false) : Decided keep (.fenced "[" "]" children) := by
  have hkept : isKept keep children = .ok ⟨false, e.skipped⟩ := by rw [isKept, h, ← hk]
  refine ⟨fun _ => ⟨_, hkept⟩, fun hno => ?_⟩
  rw [isOmitted, hkept] at hno
  cases hno

/-- A symbol in brackets. -/
def bracketed (name : String) : Node :=
  .fenced "[" "]" [.identifier name]

/-- The formula `a - [x] + b [y]`. -/
def optionalTerms : Node :=
  .row [.identifier "a", .operator "-", bracketed "x", .operator "+", .identifier "b",
    bracketed "y"]

/-- The formula `a * -[x] + b`. -/
def signedFactor : Node :=
  .row [.identifier "a", .operator "*", .operator "-", bracketed "x", .operator "+",
    .identifier "b"]

theorem compile_letters : (Node.row [.identifier "x"]).compile "" = .ok ⟨[.symbol "x" ""], []⟩ ∧
    (Node.row [.identifier "y"]).compile "" = .ok ⟨[.symbol "y" ""], []⟩ := by
  decide +kernel

/-- The code of a pruned formula. -/
def prunedCode? (keep : NameSet → Bool) (n : Node) : Option String :=
  (prune keep n).toOption.bind fun p => (p.result.compile "").toOption.map Expression.code

theorem code_of_pruned {p : Noted Node} {code : String} (hp : prune keep n = .ok p)
    (he : p.result.compile "" = .ok e) (hc : prunedCode? keep n = some code) : e.code = code := by
  rw [prunedCode?, hp] at hc
  simpa only [Except.toOption, Option.bind_some, he, Option.map_some, Option.some.injEq] using hc

/-- A term goes with its sign, a factor becomes nought. -/
theorem compile_pruned_terms : ∃ e p e' a b,
    (zeroed (fun _ => false) optionalTerms).compile "" = .ok e ∧
    prune (fun _ => false) optionalTerms = .ok p ∧ p.result.compile "" = .ok e' ∧
    e.code = "a - 0 + b * 0" ∧ e'.code = "a + b * 0" ∧ Reads e.code a ∧ Reads e'.code b ∧
    Alike a b := by
  have hd : Decided (fun _ => false) optionalTerms :=
    ⟨trivial, trivial, decided_dropped compile_letters.1 rfl, trivial, trivial,
      decided_dropped compile_letters.2 rfl, trivial⟩
  have hz : (zeroed (fun _ => false) optionalTerms).compile "" =
      .ok ⟨[.symbol "a" "", .text "-", .text "(", .text "0", .text ")", .text "+",
        .symbol "b" "", .text "*", .text "(", .text "0", .text ")"], []⟩ := by
    decide +kernel
  have hcode : (Expression.mk [.symbol "a" "", .text "-", .text "(", .text "0", .text ")",
      .text "+", .symbol "b" "", .text "*", .text "(", .text "0", .text ")"] []).code =
        "a - 0 + b * 0" := by
    decide +kernel
  have ha : Reads "a - 0 + b * 0" (.joined .plus (.joined .minus (.name ['a']) (.numeral ['0']))
      (.joined .times (.name ['b']) (.numeral ['0']))) := by
    unfold Reads
    decide +kernel
  have hm : Matched (tokens [.symbol "a" "", .text "-", .text "(", .text "0", .text ")",
      .text "+", .symbol "b" "", .text "*", .text "(", .text "0", .text ")"]) := by
    unfold Matched
    decide +kernel
  rw [← hcode] at ha
  obtain ⟨p, e', b, hp, he', hb, hab⟩ := compile_pruned hd hz hm ha (by decide +kernel)
  have hpruned : prunedCode? (fun _ => false) optionalTerms = some "a + b * 0" := by
    decide +kernel
  exact ⟨_, p, e', _, b, hz, hp, he', hcode, code_of_pruned hp he' hpruned, ha, hb, hab⟩

/-- The sign of a factor goes as well, and a sum becomes a product. -/
theorem pruned_factor : ∃ e p e', (zeroed (fun _ => false) signedFactor).compile "" = .ok e ∧
    prune (fun _ => false) signedFactor = .ok p ∧ p.result.compile "" = .ok e' ∧
    e.code = "a * -0 + b" ∧ e'.code = "a * +b" ∧ ¬SameValue e.code e'.code := by
  have hd : Decided (fun _ => false) signedFactor :=
    ⟨trivial, trivial, trivial, decided_dropped compile_letters.1 rfl, trivial, trivial, trivial⟩
  obtain ⟨p, hp⟩ := exists_prune signedFactor hd
  have hz : (zeroed (fun _ => false) signedFactor).compile "" = .ok ⟨[.symbol "a" "", .text "*",
      .text "-", .text "(", .text "0", .text ")", .text "+", .symbol "b" ""], []⟩ := by
    decide +kernel
  have hcode : (Expression.mk [.symbol "a" "", .text "*", .text "-", .text "(", .text "0",
      .text ")", .text "+", .symbol "b" ""] []).code = "a * -0 + b" := by
    decide +kernel
  have hpruned : prunedCode? (fun _ => false) signedFactor = some "a * +b" := by decide +kernel
  cases he' : p.result.compile "" with
  | error f =>
    rw [prunedCode?, hp, Except.toOption, Option.bind_some, he'] at hpruned
    cases hpruned
  | ok e' =>
    have hcode' : e'.code = "a * +b" := code_of_pruned hp he' hpruned
    refine ⟨_, p, e', hz, hp, he', hcode, hcode', fun h => ?_⟩
    rw [hcode, hcode'] at h
    have hread : Reads "a * -0 + b" (.joined .plus (.joined .times (.name ['a'])
        (.signed .minus (.numeral ['0']))) (.name ['b'])) := by
      unfold Reads
      decide +kernel
    have hread' : read Tree.mentionsName (lex "a * +b".toList) =
        some (.joined .times (.name ['a']) (.signed .plus (.name ['b']))) := by
      decide +kernel
    obtain ⟨t, ⟨-, ht⟩, halike⟩ := h.left _ hread
    cases hread'.symm.trans ht
    let m : Meaning ℚ := ⟨fun w => if w = ['a'] then 0 else 1, fun _ x _ => x, fun x _ => x,
      fun x _ => x, id, 0⟩
    exact absurd (halike.value ℚ m) (by decide +kernel)

end Brackets

end Node

end Formula

end Kinetics

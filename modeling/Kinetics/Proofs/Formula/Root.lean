import Kinetics.Proofs.Formula.Place
import Kinetics.Proofs.Python.Parentheses
import Kinetics.Proofs.Python.Power

/-!
# Kinetics.Proofs.Formula.Root

Roots in formulas. The children of a root stand side by side: no sign of multiplication is put
between them. Where none would be, a root over them is the root over the row of them, and what is
raised to one half is the code of that row as a whole (`compile_root`). Where a sign is missing it
stays so (`root_juxtaposed`).
-/

namespace Kinetics

namespace Formula

open Python

namespace Node

variable {suffix : String} {children : List Node} {content : List Fragment}

/-- The code of a root. -/
def rootCode (content : List Fragment) : List Fragment :=
  parenthesized content ++ [.text "**", .text "0.5"]

theorem tokens_rootCode (content : List Fragment) :
    tokens (rootCode content) = rootTokens (tokens content) := by
  have hpower : Code.lex (characters (.text "**")) = [Joint.power.token] := by decide +kernel
  have hhalf : Code.lex (characters (.text "0.5")) = [.number ['0', '.', '5']] := by decide +kernel
  rw [rootCode, tokens_append, tokens_parenthesized, tokens_cons, tokens_cons, hpower, hhalf]
  rfl

theorem explicit_root (ns : List Node) : explicit (.root ns) = .root (explicitAll ns) := by
  rw [explicit]

/-- Children that are complete as they stand: the row of them is no call form, and no sign of
multiplication would be put between them. -/
structure Complete (children : List Node) : Prop where
  keyword : headKeyword? (visible children) = none
  signs : joinFactors (explicitAll children) = explicitAll children

namespace Complete

theorem joined (h : Complete children) : joined children = explicitAll children := by
  have hkeyword : headKeyword? children = none := by
    by_contra hk
    obtain ⟨k, hk⟩ := Option.ne_none_iff_exists'.1 hk
    cases h.keyword.symm.trans (headKeyword?_visible hk)
  rw [Node.joined, hkeyword]
  exact h.signs

theorem fragments_row (h : Complete children) : fragments suffix (explicit (.row children)) =
    (fragmentsEach suffix (explicitAll children)).map List.flatten := by
  rw [Node.fragments_row, h.keyword, h.joined]
  rfl

theorem fragments_root (h : Complete children) : fragments suffix (explicit (.root children)) =
    (fragments suffix (explicit (.row children))).map rootCode := by
  rw [h.fragments_row, explicit_root, fragments]
  cases fragmentsEach suffix (explicitAll children) <;> rfl

theorem fragments_root_row (h : Complete children) :
    fragments suffix (explicit (.root [.row children])) =
      fragments suffix (explicit (.root children)) := by
  have hall : explicitAll [.row children] = [explicit (.row children)] := explicitAll_eq _
  rw [h.fragments_root, explicit_root, hall, fragments, fragmentsEach, fragmentsEach]
  cases fragments suffix (explicit (.row children)) with
  | error e => rfl
  | ok fs => simp [Except.map, rootCode]

/-- A root and the root over a row stand in the same places. -/
theorem agree (h : Complete children) : Agree (.root children) (.root [.row children]) := by
  have hpeers (ns : List Node) : Peers (.root ns) (.root [.row ns]) :=
    ⟨rfl, rfl, rfl, by simp [compoundName, compoundNames], rfl, by simp [skippedTags, skippedAmong]⟩
  refine ⟨hpeers children, ?_⟩
  have hall : explicitAll [.row children] = [.row (explicitAll children)] := by
    simp [explicitAll, isSpace, explicit_row_eq, h.joined]
  rw [explicit_root, explicit_root, hall]
  exact hpeers _

end Complete

/-- What is raised to one half, when the code is read: all of the content, where an operand is
expected. -/
theorem root_of_reads {e : Expression} {ahead behind : List Fragment} {t : Tree}
    (hc : fragments suffix (explicit (.row children)) = .ok content)
    (he : e.fragments = ahead ++ (rootCode content ++ behind))
    (hm : Matched (tokens e.fragments)) (hcontent : Matched (tokens content))
    (hx : expects (tokens ahead).getLast? = true) (ht : Reads e.code t) :
    ∃ e' b, (group children).compile suffix = .ok e' ∧ Reads e'.code b ∧
      t.Somewhere (IsRoot b) := by
  have hgroup : fragments suffix (explicit (group children)) = .ok (parenthesized content) := by
    rw [group, explicit_grouped rfl, fragments_grouped, hc]
    rfl
  have hsublist : (parenthesized content).Sublist e.fragments := by
    rw [he, rootCode, List.append_assoc]
    exact (List.sublist_append_left _ _).trans (List.sublist_append_right _ _)
  obtain ⟨hp, ho, hr⟩ := (reads_code hm).1 ht
  have htokens : tokens e.fragments =
      tokens ahead ++ (rootTokens (tokens content) ++ tokens behind) := by
    rw [he, tokens_append, tokens_append, tokens_rootCode]
  rw [readOrNought_of_ne_nil (by simp [htokens, rootTokens]), htokens] at hr
  obtain ⟨b, hb, hs⟩ := root_of_read hcontent hx hr
  refine ⟨⟨parenthesized content, (group children).explicit.skippedTags⟩, b, ?_, ?_, hs⟩
  · rw [compile, hgroup]
  · have hline := intercalate_sublist (hsublist.map characters)
    have hmatched : Matched (tokens (parenthesized content)) := by
      rw [tokens_parenthesized]
      exact matched_inBrackets hcontent
    refine (reads_code hmatched).2
      ⟨fun c hc => hp c (hline.subset hc), Code.oneLine_sublist hline ho, ?_⟩
    rwa [tokens_parenthesized, readOrNought_of_ne_nil (by simp [inBrackets])]

/-- The root over children between which no sign is missing is the root over the row of them,
wherever it stands. What its code raises to one half is the code of that row in parentheses, as a
whole. -/
theorem compile_root {p : Place} (h : Complete children) :
    (p.fill (.root children)).compile suffix = (p.fill (.root [.row children])).compile suffix ∧
    ∀ e, (p.fill (.root children)).compile suffix = .ok e →
      (p.isNamed (.root children) = true ∨ ∃ content ahead behind,
        fragments suffix (explicit (.row children)) = .ok content ∧
          e.fragments = ahead ++ (rootCode content ++ behind)) ∧
      ∀ content ahead behind, fragments suffix (explicit (.row children)) = .ok content →
        e.fragments = ahead ++ (rootCode content ++ behind) → Matched (tokens e.fragments) →
        Matched (tokens content) → expects (tokens ahead).getLast? = true → ∀ t, Reads e.code t →
        ∃ e' b, (group children).compile suffix = .ok e' ∧ Reads e'.code b ∧
          t.Somewhere (IsRoot b) := by
  refine ⟨compile_fill_eq h.agree h.fragments_root_row.symm p, fun e he => ⟨?_, ?_⟩⟩
  · have hroot : fragments suffix _ = _ := h.fragments_root
    cases hc : fragments suffix (explicit (.row children)) with
    | error fault =>
      rw [hc] at hroot
      exact .inl (isNamed_of_fault (.refl rfl) hroot he)
    | ok content =>
      rw [hc] at hroot
      obtain ⟨_, -, -, hx⟩ := compile_fill (.refl rfl) hroot hroot he
      refine hx.imp And.left ?_
      rintro ⟨ahead, behind, hx⟩
      exact ⟨content, ahead, behind, rfl, hx.left⟩
  · exact fun content ahead behind hc hx hm hcontent hexpects t ht =>
      root_of_reads hc hx hm hcontent hexpects ht

/-- A product with its sign, behind a sum. -/
theorem compile_root_product : Complete [.number "2", .operator "·", .identifier "x"] ∧ ∃ e,
    ((Place.among .row [.identifier "a", .operator "+"] .here []).fill
      (.root [.number "2", .operator "·", .identifier "x"])).compile "" = .ok e ∧
    ((Place.among .row [.identifier "a", .operator "+"] .here []).fill
      (.root [.row [.number "2", .operator "·", .identifier "x"]])).compile "" = .ok e ∧
    e.code = "a + (2 * x) ** 0.5" ∧
    ∀ t, Reads e.code t → ∃ e' b,
      (group [.number "2", .operator "·", .identifier "x"]).compile "" = .ok e' ∧
        Reads e'.code b ∧ t.Somewhere (IsRoot b) := by
  have hcomplete : Complete [.number "2", .operator "·", .identifier "x"] := ⟨rfl, rfl⟩
  have h : ((Place.among .row [.identifier "a", .operator "+"] .here []).fill
      (.root [.number "2", .operator "·", .identifier "x"])).compile "" =
        .ok ⟨[Fragment.symbol "a" "", .text "+"] ++
          (rootCode [.text "2", .text "*", .symbol "x" ""] ++ []), []⟩ := by
    decide +kernel
  obtain ⟨hrow, hroot⟩ :=
    @compile_root "" _ (.among .row [.identifier "a", .operator "+"] .here []) hcomplete
  refine ⟨hcomplete, _, h, hrow ▸ h, by decide +kernel, ?_⟩
  refine (hroot _ h).2 [.text "2", .text "*", .symbol "x" ""] _ _ (by decide +kernel) rfl ?_ ?_
    (by decide +kernel) <;>
    (unfold Matched; decide +kernel)

/-- Where a sign is missing between the children, the code of a root is no expression, while the
root over the row of them is one. Right behind an operand a root is read as that of a call. -/
theorem root_juxtaposed :
    (∃ e e', (Node.root [.number "2", .identifier "x"]).compile "" = .ok e ∧
      (Node.root [.row [.number "2", .identifier "x"]]).compile "" = .ok e' ∧
      e.code = "2 x ** 0.5" ∧ e'.code = "(2 * x) ** 0.5" ∧ (∀ t, ¬Reads e.code t) ∧
      Reads e'.code (.joined .power (.joined .times (.numeral ['2']) (.name ['x'])) half)) ∧
    ∃ e, (Node.row [.identifier "f", .operator "\u2061", .root [.identifier "x"]]).compile "" =
        .ok e ∧ e.code = "f(x) ** 0.5" ∧
      Reads e.code (.joined .power (.call (.name ['f']) (.name ['x'])) half) := by
  have hcode : (Expression.mk (rootCode [.text "2", .symbol "x" ""]) []).code = "2 x ** 0.5" := by
    decide +kernel
  have hrow : (Expression.mk (rootCode [.text "2", .text "*", .symbol "x" ""]) []).code =
      "(2 * x) ** 0.5" := by
    decide +kernel
  have hcall : (Expression.mk (.symbol "f" "" :: rootCode [.symbol "x" ""]) []).code =
      "f(x) ** 0.5" := by
    decide +kernel
  have hnone : read Tree.mentionsName (Code.lex "2 x ** 0.5".toList) = none := by decide +kernel
  refine ⟨⟨_, _, ?_, ?_, hcode, hrow, ?_, ?_⟩, _, ?_, hcall, ?_⟩
  · decide +kernel
  · decide +kernel
  · rintro t ⟨-, ht⟩
    rw [hcode, hnone] at ht
    cases ht
  · rw [hrow]
    unfold Reads
    decide +kernel
  · decide +kernel
  · rw [hcall]
    unfold Reads
    decide +kernel

end Node

end Formula

end Kinetics

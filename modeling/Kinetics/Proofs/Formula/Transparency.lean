import Kinetics.Proofs.Formula.Seams

/-!
# Kinetics.Proofs.Formula.Transparency

Rows within rows. A row is emitted as its children are, without parentheses, so it should not
matter whether they stand in a row of their own. It does not as long as no sign of multiplication
is put around the inner row that would not be put around its children; any other such sign stands
at an end of the inner row, and the other fragments are the same (`compile_nested`). A blank text
and a row without children are operands as well, of nothing at all: next to a factor each leaves a
sign behind (`compile_contentless`). What is the same here are fragments: the line that they are
joined into may lose other parentheses where a sign stands in front of them.
-/

namespace Kinetics

namespace Formula

namespace Node

variable {suffix : String} {x : Node} {before inner after : List Node}

section Contentless

/-- A blank text, or a row without children. -/
def isContentless : Node → Bool
  | .text s => Text.allBlank s.toList
  | .row ns => ns.isEmpty
  | _ => false

theorem trimString_blank {s : String} (h : Text.allBlank s.toList = true) :
    Text.trimString s = "" := by
  have hstart : Text.trimStart s.toList = [] := by
    rw [Text.trimStart, List.dropWhile_eq_nil_iff]
    exact List.all_eq_true.1 h
  rw [Text.trimString, Text.trim, hstart]
  rfl

theorem leafName_blank {s : String} (h : Text.allBlank s.toList = true) : leafName s = "" := by
  have hnone : s.toList.filter (fun c => !Text.isBlank c) = [] := by
    rw [List.filter_eq_nil_iff]
    intro c hc
    simp [List.all_eq_true.1 h c hc]
  rw [leafName, hnone]
  rfl

/-- A node without content is an operand made of nothing. -/
theorem bundles_contentless (hx : isContentless x = true) : Bundles suffix x [] := by
  cases x with
  | text s =>
    have hblank : Text.allBlank s.toList = true := hx
    have hname := leafName_blank hblank
    refine ⟨rfl, rfl, rfl, rfl, ?_, rfl, ?_, rfl, ?_⟩
    · rw [compoundName, hname]
      rfl
    · rw [explicit, compoundName, hname]
      rfl
    · rw [explicit, fragments, if_pos hblank]
      rfl
  | row ns =>
    obtain rfl := List.isEmpty_iff.1 hx
    refine ⟨rfl, rfl, rfl, ?_, rfl, rfl, ?_, rfl, ?_⟩
    · rw [opensFactor_row]
      rfl
    · rw [explicit_row_none rfl, compoundName]
    · exact fragments_row_none rfl
  | _ => cases hx

theorem not_isAsterisk_contentless (hx : isContentless x = true) :
    isAsterisk x = false ∧ x.explicit.isAsterisk = false := by
  have hempty : (operatorCode "" == "*") = false := by decide +kernel
  cases x with
  | text s =>
    have htrim := trimString_blank (s := s) hx
    rw [explicit, isAsterisk, htrim]
    exact ⟨hempty, hempty⟩
  | row ns =>
    obtain rfl := List.isEmpty_iff.1 hx
    exact ⟨rfl, by rw [isAsterisk_explicit_row]; rfl⟩
  | _ => cases hx

/-- A node without content put among the children of a row that is no call form and no lone star.
Within a subscript it makes no difference, nor where no factor ends right before it and none starts
right behind it. Anywhere else the fragments have a sign of multiplication on each side of it where
a factor stands, in place of the one sign that two factors have between them: one sign more. -/
theorem compile_contentless (hx : x.isContentless = true)
    (hcall : headKeyword? (visible (before ++ after)) = none)
    (hstar : (explicit (.row (before ++ after))).isAsterisk = false) (p : Place) :
    (p.inSubscript = true ∨ (endsFactor before || startsFactor after) = false →
      (p.fill (.row (before ++ x :: after))).compile suffix =
        (p.fill (.row (before ++ after))).compile suffix) ∧
    (p.inSubscript = false → (endsFactor before || startsFactor after) = true →
      (seamed suffix before [] after ⟨endsFactor before, startsFactor after⟩).Differs suffix
        (seamed suffix before [] after ⟨false, endsFactor before && startsFactor after⟩)
        ((p.fill (.row (before ++ x :: after))).compile suffix)
        ((p.fill (.row (before ++ after))).compile suffix) ∧
      Heavier 1 ((p.fill (.row (before ++ x :: after))).compile suffix)
        ((p.fill (.row (before ++ after))).compile suffix)) := by
  have hwithin : Signs.within before [] after =
      ⟨false, endsFactor before && startsFactor after⟩ := by
    rw [Signs.within, List.append_nil, show startsFactor [] = false from rfl, Bool.and_false]
  have hsigns : Signs.around before after = .within before [] after ↔
      (endsFactor before || startsFactor after) = false := by
    rw [hwithin, Signs.around]
    cases endsFactor before <;> cases startsFactor after <;> decide
  have hseams : seams before [] after = (endsFactor before || startsFactor after).toNat := by
    rw [seams, List.append_nil]
    cases endsFactor before <;> cases startsFactor after <;> rfl
  obtain ⟨hplain, hexplicit⟩ := not_isAsterisk_contentless hx
  have hflat : before ++ [] ++ after = before ++ after := by rw [List.append_nil]
  have hraw : isAsterisk (.row (before ++ after)) = false := by
    rw [Bool.eq_false_iff]
    intro hr
    simp [isAsterisk_explicit hr] at hstar
  have houter : (explicit (.row (before ++ x :: after))).isAsterisk = false := by
    have hv : visible (before ++ x :: after) = visible before ++ x :: visible after := by
      rw [visible_append, visible, visible, List.filter_cons_of_pos]
      · rfl
      · simp [(@bundles_contentless suffix x hx).space]
    rw [isAsterisk_explicit_row, hv]
    exact sole_inserted (f := fun n => n.explicit.isAsterisk) hexplicit _ _
  have hraws : isAsterisk (.row (before ++ x :: after)) =
      isAsterisk (.row (before ++ [] ++ after)) := by
    rw [hflat, hraw, isAsterisk_row]
    exact sole_inserted hplain _ _
  have h := (@bundles_contentless suffix x hx).compile (by rwa [hflat]) hraws
    (by rw [hflat, hstar, houter]) p
  rw [hflat] at h
  constructor
  · rintro (hp | hq)
    · exact h.1 (.inl hp)
    · exact h.1 (.inr (hsigns.2 hq))
  · intro hp hq
    have hdiffers := h.2 hp (by simp [hsigns, hq])
    have hheavier := heavier_of_differs hdiffers
    rw [hseams, hq] at hheavier
    rw [hwithin] at hdiffers
    exact ⟨hdiffers, hheavier⟩

/-- A no-break space behind an operand makes a sum a product; behind a sign it is nothing. -/
theorem compile_contentless_blank :
    (∃ e e', (Place.here.fill (.row ([identifier "a"] ++
        text "\u00a0" :: [operator "+", identifier "b"]))).compile "" = .ok e ∧
      (Place.here.fill (.row ([identifier "a"] ++
        [operator "+", identifier "b"]))).compile "" = .ok e' ∧
      e.code = "a * +b" ∧ e'.code = "a + b" ∧
      (seamed "" [identifier "a"] [] [operator "+", identifier "b"] ⟨true, false⟩).Differs ""
        (seamed "" [identifier "a"] [] [operator "+", identifier "b"] ⟨false, false⟩)
        (.ok e) (.ok e') ∧ Heavier 1 (.ok e) (.ok e')) ∧
    ((Place.first .sup .here (.number "2")).fill (.row ([identifier "a", operator "+"] ++
        text "\u00a0" :: [operator "-", identifier "b"]))).compile "" =
      ((Place.first .sup .here (.number "2")).fill (.row ([identifier "a", operator "+"] ++
        [operator "-", identifier "b"]))).compile "" := by
  constructor
  · have hends : endsFactor [.identifier "a"] = true := by decide +kernel
    have hstarts : startsFactor [.operator "+", .identifier "b"] = false := by decide +kernel
    have h := (@compile_contentless "" (.text "\u00a0") [.identifier "a"]
      [.operator "+", .identifier "b"] (by decide +kernel) (by decide +kernel) (by decide +kernel)
      .here).2 rfl (by rw [hends, hstarts]; rfl)
    rw [hends, hstarts] at h
    generalize hr : (Place.here.fill (.row ([identifier "a"] ++
      text "\u00a0" :: [operator "+", identifier "b"]))).compile "" = r at h
    generalize hr' : (Place.here.fill (.row ([identifier "a"] ++
      [operator "+", identifier "b"]))).compile "" = r' at h
    have hx : r = .ok ⟨[.symbol "a" "", .text "*", .text "+", .symbol "b" ""], []⟩ := by
      rw [← hr]
      decide +kernel
    have hy : r' = .ok ⟨[.symbol "a" "", .text "+", .symbol "b" ""], []⟩ := by
      rw [← hr']
      decide +kernel
    rw [hx, hy] at h
    exact ⟨_, _, hx, hy, by decide +kernel, by decide +kernel, h⟩
  · exact (@compile_contentless "" (.text "\u00a0") [.identifier "a", .operator "+"]
      [.operator "-", .identifier "b"] (by decide +kernel) (by decide +kernel) (by decide +kernel)
      (.first .sup .here (.number "2"))).1 (.inr (by decide +kernel))

end Contentless

section Nested

/-- A row that is no call form is an operand made of its children. -/
theorem bundles_row (h : headKeyword? (visible inner) = none) :
    Bundles suffix (.row inner) inner := by
  refine ⟨rfl, rfl, rfl, ?_, rfl, rfl, ?_, ?_, fragments_row_none h⟩
  · rw [opensFactor_row, h]
    rfl
  · rw [explicit_row_none h, compoundName]
  · rw [explicit_row_none h, skippedTags]

/-- A row within a row, and its children in its place; neither row is a call form. Within a
subscript, or with the same signs of multiplication at the ends of the inner row as its children
have there, there is no difference. Otherwise the fragments are those of the siblings in front, the
inner row and the siblings behind with the one or the other signs between them, so that the signs
which the inner row has more are all the difference. -/
theorem compile_nested (hinner : headKeyword? (visible inner) = none) (hne : visible inner ≠ [])
    (houter : headKeyword? (visible (before ++ .row inner :: after)) = none) (p : Place) :
    (p.inSubscript = true ∨ Signs.around before after = .within before inner after →
      (p.fill (.row (before ++ .row inner :: after))).compile suffix =
        (p.fill (.row (before ++ inner ++ after))).compile suffix) ∧
    (p.inSubscript = false → Signs.around before after ≠ .within before inner after →
      (seamed suffix before inner after (.around before after)).Differs suffix
        (seamed suffix before inner after (.within before inner after))
        ((p.fill (.row (before ++ .row inner :: after))).compile suffix)
        ((p.fill (.row (before ++ inner ++ after))).compile suffix) ∧
      Heavier (seams before inner after)
        ((p.fill (.row (before ++ .row inner :: after))).compile suffix)
        ((p.fill (.row (before ++ inner ++ after))).compile suffix)) := by
  have hv : visible (before ++ .row inner :: after) =
      visible before ++ .row inner :: visible after := by
    rw [visible_append]
    rfl
  have hflat : visible (before ++ inner ++ after) =
      visible before ++ (visible inner ++ visible after) := by
    rw [visible_append, visible_append, List.append_assoc]
  have hcall : headKeyword? (visible (before ++ inner ++ after)) = none := by
    rw [hflat]
    rw [hv] at houter
    cases hb : visible before with
    | nil =>
      obtain ⟨n, ns, hn⟩ := List.exists_cons_of_ne_nil hne
      rw [hn, headKeyword?_cons] at hinner
      rw [List.nil_append, hn, List.cons_append, headKeyword?_cons, hinner]
    | cons b bs =>
      rw [hb, List.cons_append, headKeyword?_cons] at houter
      rw [List.cons_append, headKeyword?_cons, houter]
  have hraw : isAsterisk (.row (before ++ .row inner :: after)) =
      isAsterisk (.row (before ++ inner ++ after)) := by
    have hnil : inner ≠ [] := by
      rintro rfl
      exact hne rfl
    rw [isAsterisk_row, isAsterisk_row, List.append_assoc]
    exact sole_spliced hnil (isAsterisk_row inner) _ _
  have hstar : (explicit (.row (before ++ .row inner :: after))).isAsterisk =
      (explicit (.row (before ++ inner ++ after))).isAsterisk := by
    rw [isAsterisk_explicit_row, isAsterisk_explicit_row, hv, hflat]
    exact sole_spliced hne (isAsterisk_explicit_row inner) _ _
  obtain ⟨hsame, hdiffers⟩ := (bundles_row hinner).compile hcall hraw hstar p
  exact ⟨hsame, fun hp hsigns => ⟨hdiffers hp hsigns, heavier_of_differs (hdiffers hp hsigns)⟩⟩

/-- The row of a difference next to an operand is a factor, while its children next to it are the
rest of a difference. -/
example : ((Node.row [.identifier "a", .row [.operator "-", .identifier "b"]]).compile "").toOption.map
      Expression.code = some "a * -b" ∧
    ((Node.row [.identifier "a", .operator "-", .identifier "b"]).compile "").toOption.map
      Expression.code = some "a - b" := by
  decide +kernel

/-- In a numerator a product may stand in a row of its own, behind a factor a difference may not:
a sign of multiplication comes between them. -/
theorem compile_nested_term :
    (visible [.number "2", .identifier "b"] ≠ [] ∧
      ((Place.first .fraction .here (.identifier "c")).fill (.row ([identifier "a",
          operator "-"] ++ row [number "2", identifier "b"] :: []))).compile "" =
        ((Place.first .fraction .here (.identifier "c")).fill (.row ([identifier "a",
          operator "-"] ++ [number "2", identifier "b"] ++ []))).compile "") ∧
    visible [.operator "-", .identifier "b"] ≠ [] ∧
      (seamed "" [identifier "a"] [operator "-", identifier "b"] [] ⟨true, false⟩).Differs ""
        (seamed "" [identifier "a"] [operator "-", identifier "b"] [] ⟨false, false⟩)
        ((Place.here.fill (.row ([identifier "a"] ++
          row [operator "-", identifier "b"] :: []))).compile "")
        ((Place.here.fill (.row ([identifier "a"] ++
          [operator "-", identifier "b"] ++ []))).compile "") := by
  have hproduct : visible [.number "2", .identifier "b"] ≠ [] := by
    intro h
    cases h
  have hdifference : visible [.operator "-", .identifier "b"] ≠ [] := by
    intro h
    cases h
  have haround : Signs.around [.identifier "a"] [] = ⟨true, false⟩ := by decide +kernel
  have hwithin : Signs.within [.identifier "a"] [.operator "-", .identifier "b"] [] =
      ⟨false, false⟩ := by decide +kernel
  refine ⟨⟨hproduct, ?_⟩, hdifference, ?_⟩
  · exact (@compile_nested "" _ _ _ (by decide +kernel) hproduct (by decide +kernel)
      (.first .fraction .here (.identifier "c"))).1 (.inr (by decide +kernel))
  · have h := (@compile_nested "" [.identifier "a"] _ [] (by decide +kernel) hdifference
      (by decide +kernel) .here).2 rfl (by rw [haround, hwithin]; decide)
    rw [haround, hwithin] at h
    exact h.1

end Nested

end Node

end Formula

end Kinetics

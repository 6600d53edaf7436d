import Kinetics.Proofs.Code.Substitution
import Kinetics.Proofs.Hygiene.Name
import Kinetics.Proofs.Python.Line
import Kinetics.Proofs.Space.Indexing

/-!
# Kinetics.Proofs.Formula.Rewriting

A formula indexed at a point. Its tokens are those of the formula's own code with the access put in
for each bound symbol (`lex_indexed`): the accesses go through the lexer and through the passes
over parentheses like the names they replace.
-/

namespace Kinetics

namespace Formula

open Code Text
open Program (IsIdentifier)
open Python

/-- A text that stands for a plug of a line. -/
structure Fills (text : String) (ts : List Token) : Prop where
  plugs : Plugs ts
  lexed : lex text.toList = ts
  plain : Plain text.toList
  single : '\n' ∉ text.toList

/-- An identifier that is no call whose argument keeps its parentheses. -/
structure IsSymbol (name : String) : Prop where
  identifier : IsIdentifier name
  free : keptCalls.contains name.toList = false

section Access

variable {name : String} {rest : List Char}

theorem lex_symbol (h : IsIdentifier name) (hr : Ends continuesName rest) :
    lex (name.toList ++ rest) = .name name.toList :: lex rest := by
  obtain ⟨⟨c, hc, hstart⟩, hall⟩ := h
  cases hn : name.toList with
  | nil => simp [hn] at hc
  | cons d s =>
    rw [hn] at hc hall
    cases hc
    refine lex_name (by simpa [startsName] using hstart) (fun e he => ?_) hr
    simp [continuesName, hall e (List.mem_cons_of_mem _ he)]

theorem single_symbol (h : IsIdentifier name) : '\n' ∉ name.toList := fun hn =>
  absurd (not_blank_of_continue (h.2 _ hn)) (by decide)

theorem lex_name_alone (h : IsIdentifier name) : lex name.toList = [.name name.toList] := by
  simpa [lex] using lex_symbol h (.nil _)

theorem fills_name (h : IsSymbol name) : Fills name [.name name.toList] := by
  have hl := lex_name_alone h.identifier
  refine ⟨.name h.free, hl, plain_of_lex ?_, single_symbol h.identifier⟩
  simp [hl, isText]

theorem turn_entries (i : Option Nat) (is : List (Option Nat)) :
    ∀ t ∈ entriesTokens i is, t.turn = 0 := by
  have hentry (i : Option Nat) : ∀ t ∈ entryTokens i, t.turn = 0 := by
    cases i <;> simp [entryTokens, Token.turn]
  refine List.forall_mem_append.2 ⟨hentry i, fun t ht => ?_⟩
  obtain ⟨j, -, ht⟩ := List.mem_flatMap.1 ht
  rcases List.mem_cons.1 ht with rfl | ht
  · rfl
  · exact hentry j t ht

theorem no_text_word {t : Token} (h : Word t) : isText t = false := by
  cases h with
  | joint o => cases o <;> rfl
  | _ => rfl

/-- The tokens of an access, on one line without literals and comments. -/
theorem lex_access (h : IsIdentifier name) (s : Shape) (p : Point) :
    lex (accessCode name s p).toList = accessTokens name.toList (accessPositions s p) ∧
      Plain (accessCode name s p).toList ∧ '\n' ∉ (accessCode name s p).toList := by
  have hcode := toList_access name s p
  cases hp : accessPositions s p with
  | nil =>
    rw [hp] at hcode
    rw [String.toList_inj.1 hcode]
    have hl := lex_name_alone h
    refine ⟨hl, plain_of_lex ?_, single_symbol h⟩
    simp [hl, isText]
  | cons i is =>
    rw [hp] at hcode
    have hs := spells_subscript i is
    have hw : ∀ t ∈ inBrackets .square (entriesTokens i is), Word t :=
      words_brackets .square (parses_entries i is).words
    have hbracket : continuesName '[' = false := by decide +kernel
    have hl : lex (accessCode name s p).toList =
        .name name.toList :: inBrackets .square (entriesTokens i is) := by
      rw [hcode, lex_symbol h (.cons hbracket), lex_of_spells hs hw]
    refine ⟨hl, plain_of_lex ?_, ?_⟩
    · rw [hl]
      exact List.forall_mem_cons.2 ⟨rfl, fun t ht => no_text_word (hw t ht)⟩
    · rw [hcode]
      intro hn
      rcases List.mem_append.1 hn with hn | hn
      · exact single_symbol h hn
      · exact absurd (spaces_of_spells hs hw hn (by decide)) (by decide)

theorem fills_access (h : IsSymbol name) (s : Shape) (p : Point) :
    Fills (accessCode name s p) (accessTokens name.toList (accessPositions s p)) := by
  obtain ⟨hl, hp, hn⟩ := lex_access h.identifier s p
  refine ⟨?_, hl, hp, hn⟩
  cases accessPositions s p with
  | nil => exact .name h.free
  | cons i is => exact .subscript h.free (turn_entries i is)

end Access

section Expression

variable {e : Expression} {substitute : String → String} {σ : String → List Token}

/-- The tokens of a fragment, or the place of its symbol. -/
def parts : Fragment → List Part
  | .symbol name _ => [.symbol name]
  | .text code => (lex code.toList).map .token

/-- The line of a formula with places for its symbols; a formula without code is nought. -/
def lineParts (e : Expression) : List Part :=
  if (e.fragments.flatMap parts).isEmpty then [.token (.number ['0'])]
  else e.fragments.flatMap parts

/-- Its symbols are identifiers and stand alone, and its text is one line without literals and
comments. -/
structure Symbolic (e : Expression) : Prop where
  symbol : ∀ name suffix, .symbol name suffix ∈ e.fragments → IsSymbol name ∧ suffix = ""
  text : ∀ code, .text code ∈ e.fragments → Plain code.toList ∧ '\n' ∉ code.toList

theorem mem_intercalate {c : Char} {css : List (List Char)} (hc : c ∈ List.intercalate [' '] css) :
    c = ' ' ∨ ∃ cs ∈ css, c ∈ cs := by
  cases css with
  | nil => cases hc
  | cons cs css =>
    rw [intercalate_cons_flatMap, List.mem_append, List.mem_flatMap] at hc
    rcases hc with hc | ⟨ds, hds, hc⟩
    · exact .inr ⟨cs, by simp, hc⟩
    · exact (List.mem_cons.1 hc).imp_right fun hc => ⟨ds, by simp [hds], hc⟩

/-- What a fragment says when the symbols are replaced. -/
theorem lex_fragment (h : Symbolic e)
    (hσ : ∀ name suffix, .symbol name suffix ∈ e.fragments → Fills (substitute name) (σ name))
    {f : Fragment} (hf : f ∈ e.fragments) :
    Plain (f.render substitute).toList ∧ '\n' ∉ (f.render substitute).toList ∧
      lex (f.render substitute).toList = splice σ (parts f) := by
  cases f with
  | symbol name suffix =>
    obtain ⟨-, rfl⟩ := h.symbol name suffix hf
    have hn := hσ name "" hf
    simpa [Fragment.render, parts] using ⟨hn.plain, hn.single, hn.lexed⟩
  | text code =>
    obtain ⟨hp, hn⟩ := h.text code hf
    exact ⟨hp, hn, by simp [Fragment.render, parts, splice, List.flatMap_map]⟩

/-- What the line of the fragments says when the symbols are replaced. -/
theorem lex_rawLine (h : Symbolic e)
    (hσ : ∀ name suffix, .symbol name suffix ∈ e.fragments → Fills (substitute name) (σ name)) :
    Plain (e.rawLine substitute).toList ∧ '\n' ∉ (e.rawLine substitute).toList ∧
      lex (e.rawLine substitute).toList = splice σ (e.fragments.flatMap parts) := by
  have hmem {c : Char} (hc : c ∈ (e.rawLine substitute).toList) :
      c = ' ' ∨ ∃ f ∈ e.fragments, c ∈ (f.render substitute).toList := by
    rw [toList_rawLine] at hc
    simpa using mem_intercalate hc
  have hp : Plain (e.rawLine substitute).toList := by
    intro c hc
    rcases hmem hc with rfl | ⟨f, hf, hc⟩
    · rfl
    · exact (lex_fragment h hσ hf).1 c hc
  refine ⟨hp, fun hn => ?_, ?_⟩
  · rcases hmem hn with hn | ⟨f, hf, hn⟩
    · cases hn
    · exact (lex_fragment h hσ hf).2.1 hn
  · rw [toList_rawLine] at hp ⊢
    rw [lex_texts hp, List.flatMap_map, splice, List.flatMap_assoc]
    exact List.flatMap_congr fun f hf => (lex_fragment h hσ hf).2.2

theorem fits_parts
    (hσ : ∀ name suffix, .symbol name suffix ∈ e.fragments → Fills (substitute name) (σ name)) :
    Fits σ (e.fragments.flatMap parts) := by
  intro name hn
  obtain ⟨f, hf, hn⟩ := List.mem_flatMap.1 hn
  cases f with
  | symbol s suffix =>
    simp only [parts, List.mem_singleton, Part.symbol.injEq] at hn
    exact hn ▸ (hσ s suffix hf).plugs
  | text code => simp [parts] at hn

theorem splice_ne_nil {ps : List Part} (h : Fits σ ps) (hne : ps ≠ []) : splice σ ps ≠ [] := by
  cases ps with
  | nil => exact absurd rfl hne
  | cons p ps =>
    cases p with
    | token t => simp
    | symbol s =>
      obtain ⟨w, vs, hv, -⟩ := h.starts
      simp [hv]

/-- The tokens of a formula whose symbols are replaced: what is put in for them leaves the rest of
the line alone. -/
theorem lex_render (h : Symbolic e) : ∃ kept, Drops kept (lineParts e) ∧
    ∀ (substitute : String → String) (σ : String → List Token),
      (∀ name suffix, .symbol name suffix ∈ e.fragments → Fills (substitute name) (σ name)) →
      lex (e.render substitute).toList = splice σ kept := by
  by_cases hnil : e.fragments.flatMap parts = []
  · refine ⟨lineParts e, .refl _, fun substitute σ hσ => ?_⟩
    obtain ⟨hp, hn, hl⟩ := lex_rawLine h hσ
    rw [hnil] at hl
    rw [toList_render, normalize_of_lex_nil hp (oneLine_single hn) hl, lineParts, hnil]
    exact lex_nought
  · obtain ⟨kept, hd, hk⟩ := normal_splice (e.fragments.flatMap parts)
    refine ⟨kept, ?_, fun substitute σ hσ => ?_⟩
    · rwa [lineParts, if_neg (by simpa using hnil)]
    · obtain ⟨hp, hn, hl⟩ := lex_rawLine h hσ
      have hfits := fits_parts hσ
      obtain ⟨hnormal, -⟩ := lex_normalize hp (oneLine_single hn)
      have hne : normalize (e.rawLine substitute).toList ≠ [] := by
        intro he
        rw [he, hl, lex] at hnormal
        exact normal_ne_nil (splice_ne_nil hfits hnil) hnormal.symm
      rw [toList_render, if_neg (by simpa using hne), hnormal, hl]
      exact hk σ hfits

/-- The tokens of what stands for a symbol at a point. -/
def tokensAt (bindings : Dict String Binding) (p : Point) (symbol : String) : List Token :=
  match bindings.find? symbol with
  | some b => lex (accessCode b.name b.shape p).toList
  | none => [.name symbol.toList]

/-- The tokens of an indexed formula are those of its code, each bound symbol replaced by the tokens
of its access. -/
theorem lex_indexed (h : Symbolic e) : ∃ kept, Drops kept (lineParts e) ∧
    lex e.code.toList = splice (fun symbol => [.name symbol.toList]) kept ∧
    ∀ (bindings : Dict String Binding) (p : Point),
      (∀ symbol b, bindings.find? symbol = some b → IsSymbol b.name) →
      lex (e.indexed p bindings).toList = splice (tokensAt bindings p) kept := by
  obtain ⟨kept, hd, hk⟩ := lex_render h
  refine ⟨kept, hd, hk id _ fun name suffix hn => fills_name (h.symbol name suffix hn).1,
    fun bindings p hb => hk _ _ fun name suffix hn => ?_⟩
  rw [Binding.substitute, tokensAt]
  cases hf : bindings.find? name with
  | none => exact fills_name (h.symbol name suffix hn).1
  | some b =>
    have haccess := fills_access (hb name b hf) b.shape p
    rwa [← haccess.lexed] at haccess

/-- A product in which the parentheses around a factor go, whether it has a subscript or not. -/
def product : Expression where
  fragments := [.text "(", .symbol "K" "", .text ")", .text "*", .symbol "K1" ""]
  skipped := []

/-- One of the two symbols is an array over the streams and species. -/
def productBindings : Dict String Binding :=
  Dict.ofList [("K", ⟨"K_", .streamSpecies⟩)]

theorem lex_indexed_product : Symbolic product ∧
    (∀ symbol b, productBindings.find? symbol = some b → IsSymbol b.name) ∧
    ∃ kept, Drops kept (lineParts product) ∧
      lex product.code.toList = splice (fun symbol => [.name symbol.toList]) kept ∧
      lex (product.indexed ⟨none, some 1, none, some 2⟩ productBindings).toList =
        splice (tokensAt productBindings ⟨none, some 1, none, some 2⟩) kept := by
  have hname {name : String} {cs : List Char} (hn : name.toList = 'K' :: cs)
      (hcs : cs.all isIdentifierContinue = true) : IsIdentifier name := by
    have hstart : isIdentifierStart 'K' = true := by decide +kernel
    rw [IsIdentifier, hn]
    refine ⟨⟨'K', rfl, .inr hstart⟩, List.forall_mem_cons.2 ⟨?_, List.all_eq_true.1 hcs⟩⟩
    exact isIdentifierContinue_of_start hstart
  have hone : IsSymbol "K" := ⟨hname (by simp) List.all_nil, by decide +kernel⟩
  have htwo : IsSymbol "K1" :=
    ⟨hname (by simp : "K1".toList = ['K', '1']) (by decide +kernel), by decide +kernel⟩
  have hbound : IsSymbol "K_" :=
    ⟨hname (by simp : "K_".toList = ['K', '_']) (by decide +kernel), by decide +kernel⟩
  have h : Symbolic product := by
    refine ⟨fun name suffix hn => ?_, fun code hc => ?_⟩
    · simp only [product, List.mem_cons, Fragment.symbol.injEq, reduceCtorEq, List.not_mem_nil,
        false_or, or_false] at hn
      rcases hn with ⟨rfl, rfl⟩ | ⟨rfl, rfl⟩
      · exact ⟨hone, rfl⟩
      · exact ⟨htwo, rfl⟩
    · simp only [product, List.mem_cons, Fragment.text.injEq, reduceCtorEq, List.not_mem_nil,
        false_or, or_false] at hc
      rcases hc with rfl | rfl | rfl <;> simp [Plain, opensText]
  have hb : ∀ symbol b, productBindings.find? symbol = some b → IsSymbol b.name := by
    intro symbol b hf
    rw [productBindings, Dict.ofList, List.foldl_cons, List.foldl_nil, Dict.find?_insert] at hf
    split at hf
    · cases hf
      exact hbound
    · cases hf
  obtain ⟨kept, hd, hc, hi⟩ := lex_indexed h
  exact ⟨h, hb, kept, hd, hc, hi _ _ hb⟩

end Expression

end Formula

end Kinetics

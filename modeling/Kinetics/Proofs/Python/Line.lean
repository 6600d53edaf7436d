import Kinetics.Formula.Expression
import Kinetics.Proofs.Code.Normal
import Kinetics.Proofs.Python.Omission

/-!
# Kinetics.Proofs.Python.Line

The code of a compiled formula says what its fragments say one after the other (`reads_code`): it
is an expression exactly if the tokens of the fragments are one, and the same one. Neither the
blanks between fragments nor the passes over parentheses matter, and a formula without code is
nought.
-/

namespace Kinetics

namespace Python

open Code Text
open Formula (Expression Fragment)

section Tokens

variable {callee : Tree → Bool} {s s' : State} {t : Token} {ts : List Token} {a : Tree}

theorem step_no_text (h : s.step callee t = some s') : isText t = false := by
  obtain ⟨x, gs⟩ := s
  obtain ⟨f, fs, hf⟩ := State.exists_frame h
  cases hf
  obtain ⟨m, hm, rfl⟩ := State.step_cons_iff.1 h
  cases hm with
  | @sign o => cases o <;> rfl
  | @skip o => cases o <;> rfl
  | @join _ o => cases o <;> rfl
  | _ => rfl

/-- No string literal and no comment is read. -/
theorem read_no_text (h : read callee ts = some a) : ∀ t ∈ ts, isText t = false := by
  obtain ⟨s', hr, -⟩ := Option.bind_eq_some_iff.1 h
  generalize State.start = s at hr
  clear h
  induction ts generalizing s with
  | nil => exact fun _ h => nomatch h
  | cons t ts ih =>
    obtain ⟨s₁, hs, hr⟩ := State.run_cons_iff.1 hr
    exact List.forall_mem_cons.2 ⟨step_no_text hs, ih s₁ hr⟩

/-- What the tokens say; nothing is nought. -/
def readOrNought (ts : List Token) : Option Tree :=
  if ts.isEmpty then some (.numeral ['0']) else read Tree.mentionsName ts

theorem readOrNought_of_ne_nil (h : ts ≠ []) : readOrNought ts = read Tree.mentionsName ts :=
  if_neg (by simpa using h)

theorem ne_nil_of_read (h : read callee ts = some a) : ts ≠ [] := by
  rintro rfl
  cases h

end Tokens

section Texts

variable {css : List (List Char)} {cs : List Char}

theorem intercalate_cons_cons (cs ds : List Char) (css : List (List Char)) :
    List.intercalate [' '] (cs :: ds :: css) = cs ++ ' ' :: List.intercalate [' '] (ds :: css) := by
  simp [List.intercalate]

theorem lex_texts (h : Plain (List.intercalate [' '] css)) :
    lex (List.intercalate [' '] css) = css.flatMap lex := by
  induction css with
  | nil => simp [List.intercalate, lex]
  | cons cs css ih =>
    cases css with
    | nil => simp [List.intercalate]
    | cons ds css =>
      rw [intercalate_cons_cons] at h ⊢
      have hrest : Plain (List.intercalate [' '] (ds :: css)) := fun c hc =>
        h c (List.mem_append_right _ (List.mem_cons_of_mem _ hc))
      rw [lex_append h.left (by decide), lex, if_pos (by decide), ih hrest,
        List.flatMap_cons (x := cs)]

theorem intercalate_sublist {dss : List (List Char)} (h : css.Sublist dss) :
    (List.intercalate [' '] css).Sublist (List.intercalate [' '] dss) := by
  have hcons (cs : List Char) (dss : List (List Char)) :
      (List.intercalate [' '] dss).Sublist (List.intercalate [' '] (cs :: dss)) := by
    cases dss with
    | nil => simp [List.intercalate]
    | cons ds dss =>
      rw [intercalate_cons_cons]
      exact .trans (.cons _ (.refl _)) (List.sublist_append_right _ _)
  induction h with
  | slnil => exact .refl _
  | cons cs h ih => exact ih.trans (hcons cs _)
  | @cons_cons css dss cs h ih =>
    cases css with
    | nil =>
      cases dss with
      | nil => exact .refl _
      | cons ds dss =>
        rw [intercalate_cons_cons]
        simp [List.intercalate]
    | cons es css =>
      cases dss with
      | nil => cases h
      | cons ds dss =>
        rw [intercalate_cons_cons, intercalate_cons_cons]
        exact .append (.refl _) (.cons_cons _ ih)

end Texts

section Code

variable {e : Expression} {a : Tree}

def characters (f : Fragment) : List Char :=
  (f.render id).toList

/-- The line of the fragments. -/
def line (e : Expression) : List Char :=
  List.intercalate [' '] (e.fragments.map characters)

/-- The tokens of the fragments, one after the other. -/
def tokens (fs : List Fragment) : List Token :=
  fs.flatMap fun f => lex (characters f)

theorem toList_rawLine (substitute : String → String) (e : Expression) :
    (e.rawLine substitute).toList =
      List.intercalate [' '] (e.fragments.map fun f => (f.render substitute).toList) := by
  simp only [Expression.rawLine, joinWith, String.toList_intercalate, List.map_map]
  rfl

theorem lex_line (h : Plain (line e)) : lex (line e) = tokens e.fragments := by
  rw [line, lex_texts h, List.flatMap_map]
  rfl

theorem toList_render (substitute : String → String) (e : Expression) :
    (e.render substitute).toList =
      if (normalize (e.rawLine substitute).toList).isEmpty then ['0']
      else normalize (e.rawLine substitute).toList := by
  rw [Expression.render, normalizeString]
  cases normalize (e.rawLine substitute).toList <;> simp

theorem toList_code (e : Expression) :
    e.code.toList = if (normalize (line e)).isEmpty then ['0'] else normalize (line e) := by
  have hline : (e.rawLine id).toList = line e := toList_rawLine id e
  rw [Expression.code, toList_render, hline]

theorem mentionsName_numeral (w : List Char) : Tree.mentionsName (.numeral w) = false := rfl

theorem lex_nought : lex ['0'] = [.number ['0']] := by
  rw [lex_cons (by decide)]
  simp [takeToken, takeExponent, lex]

/-- The code of a formula is an expression if its fragments are one. -/
theorem reads_code (hm : Matched (tokens e.fragments)) : Reads e.code a ↔
    Plain (line e) ∧ oneLine (line e) = true ∧ readOrNought (tokens e.fragments) = some a := by
  rw [Reads, toList_code]
  by_cases hn : normalize (line e) = []
  · have hp : Plain (line e) := plain_of_normal (by rw [hn]; exact fun _ h => nomatch h)
    have ho : oneLine (line e) = true := oneLine_of_normal (by simp [hn])
    have hnil : lex (line e) = [] := by
      by_contra hne
      refine normal_ne_nil hne ?_
      rw [← (lex_normalize hp ho).1, hn, lex]
    have hread : read Tree.mentionsName [.number ['0']] = some (.numeral ['0']) := rfl
    rw [← lex_line hp, hnil, hn]
    simp [lex_nought, hp, ho, readOrNought, hread]
  · rw [if_neg (by simpa using hn)]
    constructor
    · rintro ⟨hline, hr⟩
      have hp := plain_of_normal (plain_of_lex (read_no_text hr))
      have ho := oneLine_of_normal hline
      rw [(lex_normalize hp ho).1, lex_line hp, read_normal mentionsName_numeral hm] at hr
      exact ⟨hp, ho, (readOrNought_of_ne_nil (ne_nil_of_read hr)).trans hr⟩
    · rintro ⟨hp, ho, hr⟩
      obtain ⟨hl, hline⟩ := lex_normalize hp ho
      refine ⟨hline, ?_⟩
      rw [hl, lex_line hp, read_normal mentionsName_numeral hm, ← readOrNought_of_ne_nil, hr]
      intro hnil
      exact hn (normalize_of_lex_nil hp ho (lex_line hp ▸ hnil))

end Code

end Python

end Kinetics

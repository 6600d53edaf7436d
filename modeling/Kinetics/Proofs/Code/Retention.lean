import Kinetics.Proofs.Code.Finished
import Kinetics.Proofs.Code.Ungrouping

/-!
# Kinetics.Proofs.Code.Retention

What normal form keeps of a text. Cut into tokens again each line has those that it had, in their
order, without the pairs of parentheses that the passes took away (`Ungroups`). All that the end of
the text loses are empty lines, and blanks behind a comment or in a string literal without its
closing quote (`Retains`).
-/

namespace Kinetics

namespace Code

open Text
open Relation (ReflTransGen)

/-- Pairs of parentheses are left out of a row: those of a row that stands by itself, as the passes
take them one after another. -/
structure Ungroups (ts us : List Token) : Prop where
  pairs : Omits none ts us
  steps : ReflTransGen Takes ts us

/-- A row stays as it is, but for blanks at the end of a last token that has no end of its own. -/
inductive Trims : List Token → List Token → Prop where
  | same {ts : List Token} : Trims ts ts
  | last {ts : List Token} {t : Token} : t.isOpen = true → Trims (ts ++ [t]) (ts ++ [t.trim])

/-- The rows of a text keep their tokens but for pairs of parentheses. Empty rows at the end go, and
the one in front of them is trimmed. -/
inductive Retains : List (List Token) → List (List Token) → Prop where
  | blank (n : Nat) : Retains (List.replicate n []) []
  | last {ts us vs : List Token} (n : Nat) : Ungroups ts us → Trims us vs →
      Retains (ts :: List.replicate n []) [vs]
  | line {ts us : List Token} {rows kept : List (List Token)} : Ungroups ts us →
      Retains rows kept → Retains (ts :: rows) (us :: kept)

/-- The tokens of a text, line by line. -/
def tokenRows (code : List Char) : List (List Token) :=
  (lines code).map lex

section Rows

variable {cs l : List Char} {ls : List (List Char)} {ts : List Token}
  {rows kept : List (List Token)}

theorem lex_print_normal (cs : List Char) : lex (print (normalTokens cs)) = normalTokens cs :=
  (ofLine_normal cs).lex_print

theorem ungroups_normalLine (cs : List Char) : Ungroups (lex cs) (lex (normalizeLine cs)) := by
  rw [lex_normalizeLine]
  exact ⟨normal_omits (lex cs), normal_takes (lex cs)⟩

theorem OfLine.trims (h : OfLine ts) : Trims ts (ts.map Token.trim) := by
  rcases List.eq_nil_or_concat ts with rfl | ⟨init, t, rfl⟩
  · exact .same
  · rw [List.concat_eq_append] at h ⊢
    rw [List.map_append, h.trim_init, List.map_singleton]
    cases ho : t.isOpen with
    | true => exact .last ho
    | false =>
      rw [trim_of_closed (h.lexed t (by simp)) ho]
      exact .same

/-- Blanks at the end of a line go with the blanks at the end of its last token. -/
theorem trims_trimEnd (h : allBlank cs = false) :
    Trims (lex (normalizeLine cs)) (lex (trimEnd (normalizeLine cs))) := by
  obtain ⟨c, hc, hb⟩ := exists_visible h
  obtain ⟨t, ht, -⟩ := mem_lex hc hb
  have hne := List.ne_nil_of_mem ht
  have hof := ofLine_normal cs
  rw [lex_normalizeLine, normalizeLine_eq, if_neg (by simpa using hne),
    hof.trimEnd_print _ (normal_ne_nil hne), lex_blanks (blank_indentation cs), hof.trim.lex_print]
  exact hof.trims

theorem Retains.blank_end (h : Retains rows kept) : Retains (rows ++ [[]]) kept := by
  have hone : [([] : List Token)] = List.replicate 1 [] := rfl
  induction h with
  | blank n =>
    rw [hone, List.replicate_append_replicate]
    exact .blank (n + 1)
  | last n hu ht =>
    rw [hone, List.cons_append, List.replicate_append_replicate]
    exact .last (n + 1) hu ht
  | line hu _ ih => exact .line hu ih

theorem Retains.lines_append (ls : List (List Char)) (h : Retains rows kept) :
    Retains (ls.map lex ++ rows) (ls.map (fun l => lex (normalizeLine l)) ++ kept) := by
  induction ls with
  | nil => exact h
  | cons l ls ih => exact .line (ungroups_normalLine l) ih

/-- Lines in normal form that are joined and trimmed are cut into the tokens of the lines. -/
theorem retains_trimEnd_joinLines (h : ∀ l ∈ ls, '\n' ∉ l ∧ '\r' ∉ l) :
    Retains (ls.map lex) (tokenRows (trimEnd (joinLines (ls.map normalizeLine)))) := by
  induction ls using List.reverseRecOn with
  | nil => exact .blank 0
  | append_singleton ls l ih =>
    obtain ⟨hls, hl⟩ := List.forall_mem_append.1 h
    rw [List.map_append, List.map_append, List.map_singleton, List.map_singleton]
    cases hb : allBlank l with
    | true =>
      have hlex : lex l = [] := by simpa [lex_nil] using lex_blanks hb []
      rw [hlex, normalizeLine_blank hb, trimEnd_joinLines_nil]
      exact (ih hls).blank_end
    | false =>
      have hlines : ∀ m ∈ ls.map normalizeLine, '\n' ∉ m ∧ '\r' ∉ m :=
        List.forall_mem_map.2 fun m hm => single_normalizeLine (hls m hm)
      have hlast := (single_normalizeLine (hl l (by simp))).1
      rw [tokenRows, lines_trimEnd_joinLines hlines hlast (visible_normalizeLine hb),
        List.map_append, List.map_map]
      exact Retains.lines_append ls (.last 0 (ungroups_normalLine l) (trims_trimEnd hb))

end Rows

/-- The normal form of a text whose carriage returns belong to line ends has the tokens of the text,
but for pairs of parentheses. What is printed of the tokens of a line that are left after the passes
is cut into these tokens. -/
theorem normalizeString_retains {code : String} (h : returnsPaired code.toList = true) :
    Retains (tokenRows code.toList) (tokenRows (normalizeString code).toList) ∧
      ∀ cs : List Char, lex (print (normalTokens cs)) = normalTokens cs := by
  refine ⟨?_, lex_print_normal⟩
  rw [normalizeString, String.toList_ofList, normalize]
  exact retains_trimEnd_joinLines (no_return_linesFrom h (by simp) (.inl (by simp)))

/-- A doubled pair, a call that is left without the parentheses before it, and a last line that is a
literal without an end. -/
theorem normalizeString_retains_unclosed :
    returnsPaired "a = ((b)) * (1)(x)\r\n\r\n  'c  # d  \n\n".toList = true ∧
      Retains (tokenRows "a = ((b)) * (1)(x)\r\n\r\n  'c  # d  \n\n".toList)
        (tokenRows (normalizeString "a = ((b)) * (1)(x)\r\n\r\n  'c  # d  \n\n").toList) := by
  have h : returnsPaired "a = ((b)) * (1)(x)\r\n\r\n  'c  # d  \n\n".toList = true := by
    decide +kernel
  exact ⟨h, (normalizeString_retains h).1⟩

end Code

end Kinetics

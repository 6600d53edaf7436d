import Kinetics.Code.Normal
import Kinetics.Text.Blank

/-!
# Kinetics.Proofs.Code.Lexeme

Lines put together from texts with a blank between them. A text that `Stands` for tokens gives the
same tokens in any line, so the tokens of a line are those of its texts in order, and the normal
form of a line depends on its tokens only.
-/

namespace Kinetics

namespace Code

open Text

def disjointRanges (r s : List (Nat × Nat)) : Bool :=
  r.all fun a => s.all fun b => a.2 < b.1 || b.2 < a.1

theorem not_inRanges_of_disjoint {r s : List (Nat × Nat)} (h : disjointRanges r s = true)
    {c : Char} (hc : inRanges r c = true) : inRanges s c = false := by
  rw [Bool.eq_false_iff]
  intro hs
  obtain ⟨a, ha, ha1, ha2⟩ := inRanges_iff.1 hc
  obtain ⟨b, hb, hb1, hb2⟩ := inRanges_iff.1 hs
  simp only [disjointRanges, List.all_eq_true] at h
  have := h a ha b hb
  simp only [Bool.or_eq_true, decide_eq_true_eq] at this
  omega

theorem not_blank_of_continue {c : Char} (h : isIdentifierContinue c = true) :
    isBlank c = false := by
  simp only [isIdentifierContinue, Bool.or_eq_true] at h
  rcases h with h | h
  · exact not_inRanges_of_disjoint (by decide +kernel) h
  · exact not_inRanges_of_disjoint (by decide +kernel) h

theorem inRanges_of_digit {c : Char} (h : c.isDigit = true) : inRanges [(48, 57)] c = true := by
  simp only [Char.isDigit, Bool.and_eq_true, decide_eq_true_eq, ge_iff_le, UInt32.le_iff_toNat_le]
    at h
  exact inRanges_iff.2 ⟨(48, 57), by simp, h.1, h.2⟩

theorem not_blank_of_digit {c : Char} (h : c.isDigit = true) : isBlank c = false :=
  not_inRanges_of_disjoint (by decide) (inRanges_of_digit h)

theorem not_startsName_of_digit {c : Char} (h : c.isDigit = true) : startsName c = false := by
  have hs : isIdentifierStart c = false :=
    not_inRanges_of_disjoint (by decide +kernel) (inRanges_of_digit h)
  have hc : c ≠ '_' := by
    rintro rfl
    cases h
  simp [startsName, hs, hc]

theorem not_digit_of_startsName {c : Char} (h : startsName c = true) : c.isDigit = false := by
  rw [Bool.eq_false_iff]
  intro hd
  simp [not_startsName_of_digit hd] at h

theorem not_blank_of_startsName {c : Char} (h : startsName c = true) : isBlank c = false := by
  simp only [startsName, Bool.or_eq_true, decide_eq_true_eq] at h
  rcases h with rfl | h
  · decide
  · exact not_blank_of_continue (isIdentifierContinue_of_start h)

/-- The text does not go on with such a character. -/
def Ends (p : Char → Bool) (rest : List Char) : Prop :=
  ∀ c, rest.head? = some c → p c = false

theorem Ends.nil (p : Char → Bool) : Ends p [] :=
  fun _ h => nomatch h

theorem Ends.cons {p : Char → Bool} {c : Char} {rest : List Char} (h : p c = false) :
    Ends p (c :: rest) := by
  intro d hd
  cases hd
  exact h

theorem Ends.cut {p : Char → Bool} {s rest : List Char} (hs : ∀ c ∈ s, p c = true)
    (hr : Ends p rest) : (s ++ rest).takeWhile p = s ∧ (s ++ rest).dropWhile p = rest := by
  rw [List.takeWhile_append_of_pos hs, List.dropWhile_append_of_pos hs]
  cases rest with
  | nil => simp
  | cons c rest => simp [hr c rfl]

theorem lex_cons {c : Char} {r : List Char} (h : isBlank c = false) :
    lex (c :: r) = (takeToken c r).1 :: lex (takeToken c r).2 := by
  rw [lex]
  simp [h]

theorem lex_name {c : Char} {s rest : List Char} (hc : startsName c = true)
    (hs : ∀ d ∈ s, continuesName d = true) (hr : Ends continuesName rest) :
    lex (c :: (s ++ rest)) = .name (c :: s) :: lex rest := by
  have hcomment : c ≠ '#' := by
    rintro rfl
    revert hc
    decide +kernel
  have hpoint : c ≠ '.' := by
    rintro rfl
    revert hc
    decide +kernel
  obtain ⟨ht, hd⟩ := hr.cut hs
  rw [lex_cons (not_blank_of_startsName hc)]
  simp [takeToken, hcomment, hpoint, not_digit_of_startsName hc, hc, ht, hd]

theorem lex_number {c : Char} {s rest : List Char}
    (hc : c.isDigit = true ∨ c = '.' ∧ startsWithDigit s = true)
    (hs : ∀ d ∈ s, continuesNumber d = true) (hr : Ends continuesNumber rest)
    (he : Ends (fun d => d = 'e' || d = 'E') rest) :
    lex (c :: (s ++ rest)) = .number (c :: s) :: lex rest := by
  have hblank : isBlank c = false := by
    rcases hc with h | ⟨rfl, -⟩
    · exact not_blank_of_digit h
    · decide
  have hcomment : c ≠ '#' := by
    rintro rfl
    revert hc
    simp
  have hnumber : (c.isDigit || (c = '.' && startsWithDigit (s ++ rest))) = true := by
    rcases hc with h | ⟨rfl, h⟩
    · simp [h]
    · cases s with
      | nil => cases h
      | cons d s => simpa [startsWithDigit] using h
  obtain ⟨ht, hd⟩ := hr.cut hs
  have hx : takeExponent rest = ([], rest) := by
    cases rest with
    | nil => rfl
    | cons d rest =>
      have hd := he d rfl
      simp only [takeExponent]
      rw [if_neg (by simpa using hd)]
  rw [lex_cons hblank, takeToken, if_neg hcomment, if_pos hnumber]
  simp only [ht, hd, hx, List.append_nil]

/-- A text behind which the line is over or goes on with a blank. -/
def Fenced (rest : List Char) : Prop :=
  rest = [] ∨ ∃ r, rest = ' ' :: r

theorem Fenced.ends {rest : List Char} (h : Fenced rest) {p : Char → Bool} (hp : p ' ' = false) :
    Ends p rest := by
  rcases h with rfl | ⟨r, rfl⟩
  · exact .nil p
  · exact .cons hp

/-- The text stands for the tokens in any line. -/
structure Stands (cs : List Char) (ts : List Token) : Prop where
  visible : ∃ c r, cs = c :: r ∧ isBlank c = false
  single : '\n' ∉ cs
  lexed : ∀ rest, Fenced rest → lex (cs ++ rest) = ts ++ lex rest

/-- The texts stand for the tokens, each for the next ones. -/
inductive Says : List (List Char) → List Token → Prop where
  | nil : Says [] []
  | cons {cs : List Char} {css : List (List Char)} {us ts : List Token} :
      Stands cs us → Says css ts → Says (cs :: css) (us ++ ts)

namespace Says

variable {css dss : List (List Char)} {cs : List Char} {ts us : List Token}

theorem one (h : Stands cs ts) : Says [cs] ts := by
  simpa using Says.cons h .nil

theorem append (h : Says css ts) (g : Says dss us) : Says (css ++ dss) (ts ++ us) := by
  induction h with
  | nil => exact g
  | cons hs _ ih =>
    rw [List.cons_append, List.append_assoc]
    exact .cons hs ih

theorem intercalate_fenced (h : Says css ts) : css = [] ∨
    ∃ c r, List.intercalate [' '] css = c :: r ∧ isBlank c = false := by
  cases h with
  | nil => exact .inl rfl
  | cons hs ht =>
    obtain ⟨c, r, rfl, hc⟩ := hs.visible
    refine .inr ?_
    cases ht with
    | nil => exact ⟨c, r, by simp [List.intercalate], hc⟩
    | cons _ _ => exact ⟨c, _, by simp [List.intercalate, List.intersperse]; rfl, hc⟩

theorem lex_intercalate (h : Says css ts) : lex (List.intercalate [' '] css) = ts := by
  induction h with
  | nil => simp [lex]
  | @cons cs css us ts hs ht ih =>
    cases ht with
    | nil => simpa [List.intercalate, lex] using hs.lexed [] (.inl rfl)
    | @cons ds dss vs ws hd hw =>
      have hi : List.intercalate [' '] (cs :: ds :: dss) =
          cs ++ ' ' :: List.intercalate [' '] (ds :: dss) := by
        simp [List.intercalate]
      rw [hi, hs.lexed _ (.inr ⟨_, rfl⟩), lex]
      simp [show isBlank ' ' = true from by decide, ih]

theorem single_line (h : Says css ts) : '\n' ∉ List.intercalate [' '] css := by
  induction h with
  | nil => simp
  | @cons cs css us ts hs ht ih =>
    cases ht with
    | nil => simpa [List.intercalate] using hs.single
    | @cons ds dss vs ws hd hw =>
      have hi : List.intercalate [' '] (cs :: ds :: dss) =
          cs ++ ' ' :: List.intercalate [' '] (ds :: dss) := by
        simp [List.intercalate]
      simp only [hi, List.mem_append, List.mem_cons, not_or]
      exact ⟨hs.single, by decide, ih⟩

end Says

theorem linesFrom_single {gathered cs : List Char} (h : '\n' ∉ cs)
    (hne : gathered ≠ [] ∨ cs ≠ []) : linesFrom gathered cs = [gathered.reverse ++ cs] := by
  induction cs generalizing gathered with
  | nil =>
    have : gathered ≠ [] := by simpa using hne
    simp [linesFrom, this]
  | cons c r ih =>
    simp only [List.mem_cons, not_or] at h
    rw [linesFrom, if_neg (fun e => h.1 e.symm), ih h.2 (.inl (by simp))]
    simp

/-- The normal form of a line that is put together from texts. -/
theorem normalize_intercalate {css : List (List Char)} {ts : List Token} (h : Says css ts)
    (hne : css ≠ []) :
    normalize (List.intercalate [' '] css) = trimEnd (print (strip (collapse none ts))) := by
  obtain ⟨c, r, hi, hc⟩ := h.intercalate_fenced.resolve_left hne
  have hl := h.lex_intercalate
  have hs := h.single_line
  rw [hi] at hl hs ⊢
  have hstart : trimStart (c :: r) = c :: r := by simp [trimStart, hc]
  have hindent : indentation (c :: r) = [] := by simp [indentation, hc]
  have hts : ts.isEmpty = false := by
    rw [← hl, lex_cons hc]
    rfl
  rw [normalize, lines, linesFrom_single hs (.inr (by simp))]
  simp [normalizeLine, normalTokens, hstart, hindent, hl, hts, joinLines, List.intercalate]

section Trim

theorem print_last (before : Token) (sign : Bool) {ts : List Token} (hne : ts ≠ []) :
    ∃ init, printFrom before sign ts = init ++ (ts.getLast hne).text := by
  induction ts generalizing before sign with
  | nil => exact absurd rfl hne
  | cons t ts ih =>
    cases ts with
    | nil => exact ⟨if spaced before sign t then [' '] else [], by simp [printFrom]⟩
    | cons u us =>
      obtain ⟨init, hi⟩ := ih t (isSign (some before) t) (by simp)
      refine ⟨(if spaced before sign t then [' '] else []) ++ t.text ++ init, ?_⟩
      rw [printFrom, hi, List.getLast_cons (List.cons_ne_nil u us), List.append_assoc _ init]

theorem trimEnd_visible (init : List Char) {cs : List Char} (hne : cs ≠ [])
    (h : ∀ c ∈ cs, isBlank c = false) : trimEnd (init ++ cs) = init ++ cs := by
  obtain ⟨ds, d, rfl⟩ := cs.eq_nil_or_concat.resolve_left hne
  simp [trimEnd, h d (by simp)]

/-- Nothing is trimmed behind a token without blanks. -/
theorem trimEnd_print (init : List Char) {ts : List Token} (hne : ts ≠ [])
    (h : ∀ t ∈ ts, t.text ≠ [] ∧ ∀ c ∈ t.text, isBlank c = false) :
    trimEnd (init ++ print ts) = init ++ print ts := by
  cases ts with
  | nil => exact absurd rfl hne
  | cons t ts =>
    cases ts with
    | nil =>
      obtain ⟨hn, hv⟩ := h t (by simp)
      simpa [print, printFrom] using trimEnd_visible init hn hv
    | cons u us =>
      obtain ⟨mid, hm⟩ := print_last t (isSign none t) (List.cons_ne_nil u us)
      obtain ⟨hn, hv⟩ := h _ (List.mem_cons_of_mem t (List.getLast_mem (List.cons_ne_nil u us)))
      rw [print, hm, ← List.append_assoc, ← List.append_assoc]
      exact trimEnd_visible _ hn hv

end Trim

end Code

end Kinetics

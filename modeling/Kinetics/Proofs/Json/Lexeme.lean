import Kinetics.Json.Lexeme
import Kinetics.Json.Printer
import Kinetics.Proofs.Decimal.Numeral

/-!
# Kinetics.Proofs.Json.Lexeme

The lexemes of written values. A numeral, a literal, a word and a mark are each read whole, as what
they were written from; a numeral only where no character follows that could belong to it.
-/

namespace Kinetics

namespace Json

open Decimal Text

section Digits

theorem takeWhile_digits {ds rest : List Char} (hd : ∀ c ∈ ds, c.isDigit = true)
    (hr : ∀ c ∈ rest.head?, c.isDigit = false) : (ds ++ rest).takeWhile Char.isDigit = ds := by
  rw [List.takeWhile_append_of_pos hd]
  cases rest with
  | nil => exact List.append_nil ds
  | cons c r =>
    rw [List.takeWhile_cons_of_neg (by rw [hr c rfl]; exact Bool.false_ne_true), List.append_nil]

theorem dropWhile_digits {ds rest : List Char} (hd : ∀ c ∈ ds, c.isDigit = true)
    (hr : ∀ c ∈ rest.head?, c.isDigit = false) : (ds ++ rest).dropWhile Char.isDigit = rest := by
  rw [List.dropWhile_append_of_pos hd]
  cases rest with
  | nil => rfl
  | cons c r => exact List.dropWhile_cons_of_neg (by rw [hr c rfl]; exact Bool.false_ne_true)

end Digits

section Numerals

/-- No character follows that could belong to a numeral. -/
def EndsNumeral (rest : List Char) : Prop :=
  ∀ c ∈ rest.head?, c.isDigit = false ∧ c ≠ '.' ∧ c ≠ 'e' ∧ c ≠ 'E'

variable {n : Numeral} {rest : List Char}

theorem takeWhole_written (h : n.Regular) (hr : ∀ c ∈ rest.head?, c.isDigit = false) :
    takeWhole (n.whole ++ rest) = some (n.whole, rest) := by
  have hd := h.wholeDigits
  rcases h.leading with hw | hhead
  · rw [hw]
    rfl
  · obtain ⟨d, ds, hw⟩ := List.exists_cons_of_ne_nil h.whole
    rw [hw] at hhead hd ⊢
    obtain ⟨hfirst, hrest⟩ := List.forall_mem_cons.1 hd
    have hzero : d ≠ '0' := fun hz => hhead (congrArg some hz)
    rw [List.cons_append, takeWhole, if_neg hzero, if_pos hfirst, takeWhile_digits hrest hr,
      dropWhile_digits hrest hr]

theorem takeFraction_written (h : n.Regular) (hr : ∀ c ∈ rest.head?, c.isDigit = false ∧ c ≠ '.') :
    takeFraction ((if n.fraction.isEmpty then [] else '.' :: n.fraction) ++ rest) =
      some (n.fraction, rest) := by
  cases hf : n.fraction with
  | nil =>
    rw [List.isEmpty_nil, if_pos rfl, List.nil_append]
    cases rest with
    | nil => rfl
    | cons c r =>
      have hc := (hr c rfl).2
      unfold takeFraction
      split
      · rename_i heq
        exact absurd (List.cons.inj heq).1 hc
      · rename_i heq
        exact absurd (List.cons.inj heq).1 hc
      · rfl
  | cons d ds =>
    have hd := h.fractionDigits
    rw [hf] at hd
    obtain ⟨hfirst, hrest⟩ := List.forall_mem_cons.1 hd
    have hr' : ∀ c ∈ rest.head?, c.isDigit = false := fun c hc => (hr c hc).1
    rw [List.isEmpty_cons, if_neg Bool.false_ne_true, List.cons_append, List.cons_append,
      takeFraction, if_pos hfirst, takeWhile_digits hrest hr', dropWhile_digits hrest hr']

/-- An exponent as it is written. -/
def exponentText (exponent : Option Int) : List Char :=
  match exponent with
  | none => []
  | some e => if e < 0 then 'e' :: '-' :: natDigits e.natAbs else 'e' :: '+' :: natDigits e.natAbs

theorem takePower_written (negative : Bool) (k : Nat) (hr : ∀ c ∈ rest.head?, c.isDigit = false) :
    takePower negative (natDigits k ++ rest) =
      some (some (if negative then -(k : Int) else k), rest) := by
  have hvalue := digitsValue_natDigits k
  have hd := isDigit_natDigits k
  obtain ⟨d, ds, hk⟩ := List.exists_cons_of_ne_nil (natDigits_ne_nil k)
  rw [hk] at hvalue hd ⊢
  obtain ⟨hfirst, hrest⟩ := List.forall_mem_cons.1 hd
  rw [List.cons_append, takePower, if_pos hfirst, takeWhile_digits hrest hr,
    dropWhile_digits hrest hr, hvalue]

theorem takeExponent_written (exponent : Option Int) (hr : EndsNumeral rest) :
    takeExponent (exponentText exponent ++ rest) = some (exponent, rest) := by
  have hr' : ∀ c ∈ rest.head?, c.isDigit = false := fun c hc => (hr c hc).1
  cases exponent with
  | none =>
    cases rest with
    | nil => rfl
    | cons c r =>
      obtain ⟨-, -, he, hE⟩ := hr c rfl
      simp only [exponentText, List.nil_append, takeExponent, he, hE, decide_false, Bool.or_self,
        if_neg Bool.false_ne_true]
  | some e =>
    rw [exponentText]
    split
    · refine (takePower_written true e.natAbs hr').trans ?_
      have he : -(e.natAbs : Int) = e := by omega
      rw [if_pos rfl, he]
    · refine (takePower_written false e.natAbs hr').trans ?_
      rw [if_neg Bool.false_ne_true, Int.natAbs_of_nonneg (by omega)]

/-- A regular numeral starts with its sign or with a digit. -/
theorem text_starts (h : n.Regular) :
    ∃ c cs, n.text true = c :: cs ∧ (c = '-' ∨ c.isDigit = true) := by
  obtain ⟨d, ds, hw⟩ := List.exists_cons_of_ne_nil h.whole
  have hd := h.wholeDigits d (by rw [hw]; exact List.mem_cons_self)
  simp only [Numeral.text, Numeral.signText, hw, List.append_assoc]
  cases n.negative with
  | true => exact ⟨'-', _, rfl, .inl rfl⟩
  | false => exact ⟨d, _, rfl, .inr hd⟩

theorem head_exponent (exponent : Option Int) (hr : EndsNumeral rest) :
    ∀ c ∈ (exponentText exponent ++ rest).head?, c.isDigit = false ∧ c ≠ '.' := by
  intro c hc
  cases exponent with
  | none => exact ⟨(hr c hc).1, (hr c hc).2.1⟩
  | some e =>
    have he : c = 'e' := by
      simp only [exponentText] at hc
      split at hc
      · exact (Option.some.inj hc).symm
      · exact (Option.some.inj hc).symm
    subst he
    decide

/-- A regular numeral is read as it was written. -/
theorem takeNumeral_written (h : n.Regular) (hr : EndsNumeral rest) :
    takeNumeral (n.text true ++ rest) = some (n, rest) := by
  have hexponent := head_exponent n.exponent hr
  have hfraction : ∀ c ∈ ((if n.fraction.isEmpty then [] else '.' :: n.fraction) ++
      (exponentText n.exponent ++ rest)).head?, c.isDigit = false := by
    intro c hc
    split at hc
    · exact (hexponent c hc).1
    · cases hc
      rfl
  have htext : n.text true ++ rest = Numeral.signText n.negative ++ (n.whole ++
      ((if n.fraction.isEmpty then [] else '.' :: n.fraction) ++
        (exponentText n.exponent ++ rest))) := by
    simp only [Numeral.text, if_true, List.append_assoc, List.singleton_append]
    rfl
  have hsign : n.whole.head? ≠ some '-' := by
    intro hhead
    exact absurd (h.wholeDigits '-' (List.mem_of_mem_head? hhead)) (by decide)
  have hwhole := takeWhole_written h hfraction
  have hfraction' := takeFraction_written h hexponent
  have hexponent' := takeExponent_written n.exponent hr
  rw [htext]
  obtain ⟨negative, whole, fraction, exponent⟩ := n
  cases negative with
  | true =>
    simp only [Numeral.signText, if_true, List.singleton_append, takeNumeral, hwhole, hfraction',
      hexponent']
  | false =>
    rw [Numeral.signText, if_neg Bool.false_ne_true, List.nil_append, takeNumeral]
    · simp only [hwhole, hfraction', hexponent']
    · intro r heq
      have hhead := congrArg List.head? heq
      rw [List.head?_append_of_ne_nil _ h.whole] at hhead
      exact hsign hhead

end Numerals

section Literals

theorem hexValue?_hexDigit {k : Nat} (h : k < 16) : hexValue? (hexDigit k) = some k := by
  have hall : ∀ k < 16, hexValue? (hexDigit k) = some k := by decide
  exact hall k h

/-- A control character is the number of its escape. -/
theorem unit?_escape {c : Char} (h : c.toNat < 32) :
    unit? '0' '0' (hexDigit (c.toNat / 16)) (hexDigit (c.toNat % 16)) = some c.toNat := by
  have hzero : hexValue? '0' = some 0 := rfl
  simp only [unit?, hzero, hexValue?_hexDigit (show c.toNat / 16 < 16 by omega),
    hexValue?_hexDigit (Nat.mod_lt c.toNat (show 0 < 16 by decide))]
  congr 1
  omega

/-- How a character stands in a literal: as a letter after a backslash, as a number after it, or as
itself. -/
theorem escape_cases (c : Char) :
    (∃ d, escape c = ['\\', d] ∧ d ≠ 'u' ∧ escaped? d = some c) ∨
    (∃ a b, escape c = ['\\', 'u', '0', '0', a, b] ∧ unit? '0' '0' a b = some c.toNat ∧
      c.toNat < 32) ∨
    escape c = [c] ∧ c ≠ '"' ∧ c ≠ '\\' ∧ ¬c.toNat < 32 := by
  by_cases hquote : c = '"'
  · subst hquote
    exact .inl ⟨'"', rfl, by decide, rfl⟩
  by_cases hslash : c = '\\'
  · subst hslash
    exact .inl ⟨'\\', rfl, by decide, rfl⟩
  by_cases hb : c = '\x08'
  · subst hb
    exact .inl ⟨'b', rfl, by decide, rfl⟩
  by_cases hf : c = '\x0c'
  · subst hf
    exact .inl ⟨'f', rfl, by decide, rfl⟩
  by_cases hn : c = '\n'
  · subst hn
    exact .inl ⟨'n', rfl, by decide, rfl⟩
  by_cases hr : c = '\r'
  · subst hr
    exact .inl ⟨'r', rfl, by decide, rfl⟩
  by_cases ht : c = '\t'
  · subst ht
    exact .inl ⟨'t', rfl, by decide, rfl⟩
  rw [escape, if_neg hquote, if_neg hslash, if_neg hb, if_neg hf, if_neg hn, if_neg hr, if_neg ht]
  by_cases hcontrol : c.toNat < 32
  · rw [if_pos hcontrol]
    exact .inr (.inl ⟨_, _, rfl, unit?_escape hcontrol, hcontrol⟩)
  · rw [if_neg hcontrol]
    exact .inr (.inr ⟨rfl, hquote, hslash, hcontrol⟩)

theorem takeLiteral_escape {c : Char} {cs raw rest : List Char}
    (h : takeLiteral cs = some (raw, rest)) :
    takeLiteral (escape c ++ cs) = some (escape c ++ raw, rest) := by
  obtain ⟨d, he, hd, hc⟩ | ⟨a, b, he, hunit, -⟩ | ⟨he, hquote, hslash, hcontrol⟩ := escape_cases c
  · rw [he]
    simp [takeLiteral, h, hd, hc]
  · rw [he]
    simp [takeLiteral, h, hunit]
  · rw [he, List.singleton_append]
    unfold takeLiteral
    rw [if_neg hquote, if_neg hslash, if_neg hcontrol, h]
    rfl

theorem unescape_escape {c : Char} {cs ds : List Char} (h : unescape cs = some ds) :
    unescape (escape c ++ cs) = some (c :: ds) := by
  obtain ⟨d, he, hd, hc⟩ | ⟨a, b, he, hunit, hcontrol⟩ | ⟨he, hquote, hslash, hcontrol⟩ :=
    escape_cases c
  · rw [he]
    simp [unescape, h, hd, hc]
  · have hhigh : isHighSurrogate c.toNat = false := by
      simp only [isHighSurrogate, Bool.and_eq_false_iff, decide_eq_false_iff_not]
      omega
    have hlow : isLowSurrogate c.toNat = false := by
      simp only [isLowSurrogate, Bool.and_eq_false_iff, decide_eq_false_iff_not]
      omega
    rw [he]
    simp [unescape, h, hunit, hhigh, hlow]
  · rw [he, List.singleton_append]
    unfold unescape
    rw [if_neg hslash, h, Option.map_some]

/-- A written literal is read up to its closing quote. -/
theorem takeLiteral_written (s : String) (rest : List Char) :
    takeLiteral ((Literal.ofString s).raw ++ '"' :: rest) = some ((Literal.ofString s).raw, rest) := by
  rw [Literal.ofString]
  induction s.toList with
  | nil =>
    rw [List.flatMap_nil, List.nil_append]
    unfold takeLiteral
    exact if_pos rfl
  | cons c cs ih =>
    rw [List.flatMap_cons, List.append_assoc]
    exact takeLiteral_escape ih

/-- A written literal denotes what it was written from. -/
theorem text?_ofString (s : String) : (Literal.ofString s).text? = some s := by
  have hall (cs : List Char) : unescape (cs.flatMap escape) = some cs := by
    induction cs with
    | nil => rfl
    | cons c cs ih =>
      rw [List.flatMap_cons]
      exact unescape_escape ih
  rw [Literal.text?, Literal.ofString, hall, Option.map_some, String.ofList_toList]

end Literals

section Lexing

/-- A text in front of others is read as the given lexemes, if what follows cannot belong to a
numeral at its end. -/
def Lexes (cs : List Char) (ls : List Lexeme) : Prop :=
  ∀ rest, EndsNumeral rest → lex (cs ++ rest) = (lex rest).map (ls ++ ·)

variable {c : Char} {cs ds rest : List Char} {l : Lexeme} {ls ms : List Lexeme}

theorem EndsNumeral.append (h : EndsNumeral cs) (hr : EndsNumeral rest) :
    EndsNumeral (cs ++ rest) := by
  cases cs with
  | nil => exact hr
  | cons c cs => exact h

theorem endsNumeral_nil : EndsNumeral [] :=
  fun _ hc => nomatch hc

theorem endsNumeral_cons (h : c.isDigit = false ∧ c ≠ '.' ∧ c ≠ 'e' ∧ c ≠ 'E') (cs : List Char) :
    EndsNumeral (c :: cs) := by
  intro d hd
  rw [← Option.some.inj hd]
  exact h

theorem lex_separator (h : isSeparator c = true) (rest : List Char) : lex (c :: rest) = lex rest := by
  rw [lex, if_pos h]

theorem lex_lexeme (hs : isSeparator c = false) (h : takeLexeme c cs = some (l, rest)) :
    lex (c :: cs) = (lex rest).map (l :: ·) := by
  rw [lex, if_neg (by rw [hs]; exact Bool.false_ne_true)]
  split
  · rename_i hnone
    rw [h] at hnone
    cases hnone
  · rename_i hsome
    rw [h] at hsome
    cases hsome
    rfl

namespace Lexes

theorem nil : Lexes [] [] := by
  intro rest _
  simp

theorem append (h : Lexes cs ls) (h' : Lexes ds ms) (hd : EndsNumeral ds) :
    Lexes (cs ++ ds) (ls ++ ms) := by
  intro rest hr
  rw [List.append_assoc, h _ (hd.append hr), h' rest hr, Option.map_map]
  simp only [Function.comp_def, List.append_assoc]

/-- Separators leave no lexeme. -/
theorem separators (hs : ∀ c ∈ cs, isSeparator c = true) (h : Lexes ds ls) : Lexes (cs ++ ds) ls := by
  induction cs with
  | nil => exact h
  | cons c cs ih =>
    obtain ⟨hc, hcs⟩ := List.forall_mem_cons.1 hs
    intro rest hr
    rw [List.cons_append, List.cons_append, lex_separator hc]
    exact ih hcs rest hr

/-- A mark stands for itself. -/
theorem mark (hs : isSeparator c = false) (hc : punctuation? c = some l) (h : Lexes cs ls) :
    Lexes (c :: cs) (l :: ls) := by
  intro rest hr
  have htake : takeLexeme c (cs ++ rest) = some (l, cs ++ rest) := by
    rw [takeLexeme, hc]
  rw [List.cons_append, lex_lexeme hs htake, h rest hr, Option.map_map]
  rfl

theorem literal {t : Literal} (ht : ∀ rest, takeLiteral (t.raw ++ '"' :: rest) = some (t.raw, rest)) :
    Lexes (quote t) [.string t] := by
  intro rest _
  have htake : takeLexeme '"' (t.raw ++ '"' :: rest) = some (.string t, rest) := by
    rw [takeLexeme, show punctuation? '"' = none from rfl, if_pos rfl, ht rest]
  have hquote : quote t ++ rest = '"' :: (t.raw ++ '"' :: rest) := by
    simp [quote]
  rw [hquote, lex_lexeme rfl htake]
  rfl

theorem null : Lexes "null".toList [.null] :=
  fun rest _ => lex_lexeme rfl
    (show takeLexeme 'n' ("ull".toList ++ rest) = some (.null, rest) from rfl)

theorem bool (b : Bool) : Lexes (if b then "true".toList else "false".toList) [.bool b] := by
  cases b with
  | true =>
    exact fun rest _ => lex_lexeme rfl
      (show takeLexeme 't' ("rue".toList ++ rest) = some (.bool true, rest) from rfl)
  | false =>
    exact fun rest _ => lex_lexeme rfl
      (show takeLexeme 'f' ("alse".toList ++ rest) = some (.bool false, rest) from rfl)

theorem number {n : Numeral} (h : n.Regular) : Lexes (n.text true) [.number n] := by
  intro rest hr
  obtain ⟨c, cs, htext, hc⟩ := text_starts h
  have hne {d : Char} (hd : ¬(d = '-' ∨ d.isDigit = true)) : c ≠ d := by
    rintro rfl
    exact hd hc
  have hseparator : isSeparator c = false := by
    have hblank : c ≠ ' ' := hne (by decide)
    have htab : c ≠ '\t' := hne (by decide)
    have hfeed : c ≠ '\n' := hne (by decide)
    have hreturn : c ≠ '\r' := hne (by decide)
    simp only [isSeparator, hblank, htab, hfeed, hreturn, decide_false, Bool.or_self]
  have hmark : punctuation? c = none := by
    unfold punctuation?
    split
    all_goals first
      | rfl
      | exact absurd hc (by decide)
  have hquote : c ≠ '"' := hne (by decide)
  have hword : takeNamed (c :: (cs ++ rest)) words = none := by
    have hn : 'n' ≠ c := (hne (by decide)).symm
    have ht : 't' ≠ c := (hne (by decide)).symm
    have hf : 'f' ≠ c := (hne (by decide)).symm
    simp [words, takeNamed, takeWord, hn, ht, hf]
  have htake : takeLexeme c (cs ++ rest) = some (.number n, rest) := by
    have hnumeral := takeNumeral_written h hr
    rw [htext, List.cons_append] at hnumeral
    rw [takeLexeme, hmark, if_neg hquote, hword, hnumeral]
  rw [htext, List.cons_append, lex_lexeme hseparator htake]
  rfl

end Lexes

end Lexing

end Json

end Kinetics

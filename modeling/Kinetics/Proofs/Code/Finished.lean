import Kinetics.Proofs.Code.Idempotence

/-!
# Kinetics.Proofs.Code.Finished

What a beginning of a line means for the rest of it. A comment, or a string literal without its
closing quote, takes along what follows. A text without either is finished: what comes behind a
blank is cut into the tokens that it has by itself (`Finished.lex_append`). Behind a text that is
not finished a name is within a literal or a comment (`lex_swallowed`).

Normal form keeps all tokens of a line but brackets, and takes blanks off the end of the token that
the end of the line has closed (`unbracketed_normalize`).
-/

namespace Kinetics

namespace Code

open Text
open Relation (ReflTransGen)

variable {b c q : Char} {as bs cs r : List Char} {t u : Token} {ts us : List Token}

/-- A comment, or a string literal that is not closed in front of a blank. -/
def Token.isOpen : Token → Bool
  | .comment _ => true
  | .quoted (q :: body) => (takeQuoted q (body ++ [' '])).2.isEmpty
  | _ => false

/-- No token of the text takes along what follows. -/
def Finished (cs : List Char) : Prop :=
  ∀ t ∈ lex cs, t.isOpen = false

instance (cs : List Char) : Decidable (Finished cs) :=
  inferInstanceAs (Decidable (∀ t ∈ lex cs, t.isOpen = false))

section Quoted

/-- A literal that is closed in front of a blank is closed whatever follows. -/
theorem takeQuoted_ended (h : (takeQuoted q ((takeQuoted q r).1 ++ [' '])).2 ≠ [])
    (rest : List Char) :
    takeQuoted q (r ++ rest) = ((takeQuoted q r).1, (takeQuoted q r).2 ++ rest) := by
  have happ := takeQuoted_append q ((takeQuoted q r).1 ++ [' '])
  have hwhole := takeQuoted_within (List.prefix_refl (takeQuoted q r).1)
  have hclosed := takeQuoted_closed h
  obtain ⟨x, d, hx⟩ := (List.eq_nil_or_concat _).resolve_left h
  rw [hx, List.concat_eq_append, ← List.append_assoc] at happ
  obtain ⟨hbody, -⟩ := List.append_inj' happ rfl
  -- The blank is behind the closing quote, so the literal is as long without it.
  have hnil : x = [] := by
    have hx := hclosed x
    rw [hbody, hwhole, Prod.mk.injEq] at hx
    exact hx.2.symm
  rw [hnil, List.append_nil] at hbody
  rw [hbody] at hclosed
  have hr := takeQuoted_append q r
  rw [← hclosed, ← List.append_assoc, hr]

theorem takeQuoted_skip (h : ∀ c ∈ cs, c ≠ q ∧ c ≠ '\\') (rest : List Char) :
    takeQuoted q (cs ++ rest) = (cs ++ (takeQuoted q rest).1, (takeQuoted q rest).2) := by
  induction cs with
  | nil => rfl
  | cons c cs ih =>
    obtain ⟨⟨hq, hb⟩, hcs⟩ := List.forall_mem_cons.1 h
    rw [List.cons_append, takeQuoted_other hq hb, ih hcs]
    rfl

/-- An open literal goes over what is neither its quote nor a backslash. -/
theorem takeQuoted_through (h : (takeQuoted q (as ++ [' '])).2 = [])
    (hcs : ∀ c ∈ cs, c ≠ q ∧ c ≠ '\\') (rest : List Char) :
    ∃ more, (takeQuoted q (as ++ (cs ++ rest))).1 = as ++ (cs ++ more) := by
  fun_induction takeQuoted q as with
  | case1 => exact ⟨_, congrArg Prod.fst (takeQuoted_skip hcs rest)⟩
  | case2 r =>
    rw [List.cons_append, takeQuoted_quote] at h
    simp at h
  | case3 hq =>
    cases cs with
    | nil =>
      cases rest with
      | nil => exact ⟨[], by simp [takeQuoted]⟩
      | cons d rest => exact ⟨d :: (takeQuoted q rest).1, by simp [takeQuoted_escape hq]⟩
    | cons c cs =>
      have hcs := takeQuoted_skip (List.forall_mem_cons.1 hcs).2 rest
      exact ⟨(takeQuoted q rest).1, by simp [takeQuoted_escape hq, hcs]⟩
  | case4 d r p hq ih =>
    rw [List.cons_append, List.cons_append, takeQuoted_escape hq] at h
    obtain ⟨more, hm⟩ := ih h
    exact ⟨more, by rw [List.cons_append, List.cons_append, takeQuoted_escape hq, hm]; rfl⟩
  | case5 c r hq hb p ih =>
    rw [List.cons_append, takeQuoted_other hq hb] at h
    obtain ⟨more, hm⟩ := ih h
    exact ⟨more, by rw [List.cons_append, takeQuoted_other hq hb, hm]; rfl⟩

end Quoted

section Continuing

/-- A token that is not open does not depend on what follows behind a blank or a bracket. -/
theorem takeToken_continue (h : (takeToken c r).1.isOpen = false) (hb : isStop b = true)
    (rest : List Char) :
    takeToken c (r ++ b :: rest) = ((takeToken c r).1, (takeToken c r).2 ++ b :: rest) := by
  cases hc : opensText c with
  | false => exact takeToken_stop (stop_of_isStop hb) hc
  | true =>
    simp only [opensText, Bool.or_eq_true, beq_iff_eq] at hc
    rcases hc with hc | rfl
    · rw [takeToken_quote hc] at h
      have hended := takeQuoted_ended (by simpa [Token.isOpen] using h) (b :: rest)
      rw [takeToken_quote hc, takeToken_quote hc, hended]
    · rw [takeToken_comment] at h
      cases h

/-- An open token goes over what is neither a quote nor a backslash. -/
theorem takeToken_through (h : (takeToken c r).1.isOpen = true)
    (hcs : ∀ d ∈ cs, opensText d = false ∧ d ≠ '\\') (rest : List Char) :
    isText (takeToken c (r ++ (cs ++ rest))).1 = true ∧
      ∃ more, (takeToken c (r ++ (cs ++ rest))).1.text = c :: (r ++ (cs ++ more)) := by
  cases hc : opensText c with
  | false =>
    have hn := isText_takeToken c r
    rw [hc] at hn
    cases ht : (takeToken c r).1 <;> simp_all [isText, Token.isOpen]
  | true =>
    refine ⟨(isText_takeToken c _).trans hc, ?_⟩
    simp only [opensText, Bool.or_eq_true, beq_iff_eq] at hc
    rcases hc with hc | rfl
    · rw [takeToken_quote hc] at h
      have hbody : (takeQuoted c r).1 = r := by
        by_contra hne
        have happ := takeQuoted_append c r
        have hleft : (takeQuoted c r).2 ≠ [] := by
          intro hnil
          rw [hnil, List.append_nil] at happ
          exact hne happ
        simp [Token.isOpen, takeQuoted_closed hleft] at h
      rw [hbody] at h
      have hquote : ∀ d ∈ cs, d ≠ c ∧ d ≠ '\\' := by
        intro d hd
        refine ⟨?_, (hcs d hd).2⟩
        rintro rfl
        have := (hcs d hd).1
        rcases hc with rfl | rfl <;> simp [opensText] at this
      obtain ⟨more, hm⟩ := takeQuoted_through (by simpa [Token.isOpen] using h) hquote rest
      exact ⟨more, by rw [takeToken_quote hc, Token.text, hm]⟩
    · exact ⟨rest, by rw [takeToken_comment, Token.text]⟩

/-- An open token takes all. -/
theorem takeToken_all (h : (takeToken c r).1.isOpen = true)
    (hcs : ∀ d ∈ cs, opensText d = false ∧ d ≠ '\\') :
    (takeToken c (r ++ cs)).2 = [] ∧ (takeToken c (r ++ cs)).1.text = c :: (r ++ cs) := by
  obtain ⟨-, more, hm⟩ := takeToken_through h hcs []
  have happ := takeToken_append c (r ++ cs)
  rw [List.append_nil] at hm
  rw [hm] at happ ⊢
  simp only [List.cons_append, List.append_assoc, List.cons.injEq, List.append_cancel_left_eq,
    List.append_right_eq_self, List.append_eq_nil_iff, true_and] at happ
  exact ⟨happ.2, by rw [happ.1, List.append_nil]⟩

theorem lex_nil : lex [] = [] := by
  rw [lex]

theorem Finished.nil : Finished [] := by
  rw [Finished, lex_nil]
  exact List.forall_mem_nil _

theorem finished_blank (hc : isBlank c = true) : Finished (c :: r) ↔ Finished r := by
  rw [Finished, lex, if_pos hc, Finished]

theorem finished_cons (hc : isBlank c = false) :
    Finished (c :: r) ↔ (takeToken c r).1.isOpen = false ∧ Finished (takeToken c r).2 := by
  rw [Finished, lex_cons hc, List.forall_mem_cons, Finished]

theorem isOpen_of_not_text (h : isText t = false) : t.isOpen = false := by
  cases t <;> first | rfl | cases h

/-- Without literals and comments a text is finished. -/
theorem Plain.finished (h : Plain cs) : Finished cs := by
  fun_induction lex cs with
  | case1 => exact .nil
  | case2 c r hc ih => exact (finished_blank hc).2 (ih (h.suffix (List.suffix_cons c r)))
  | case3 c r hc ih =>
    have hr := h.suffix ((takeToken_suffix c r).trans (List.suffix_cons c r))
    refine (finished_cons (by simpa using hc)).2 ⟨isOpen_of_not_text ?_, ih hr⟩
    rw [isText_takeToken, h c (by simp)]

/-- Behind a finished text and a blank or a bracket, tokens are those of what follows. -/
theorem Finished.lex_append (h : Finished cs) (hb : isStop b = true) (rest : List Char) :
    lex (cs ++ b :: rest) = lex cs ++ lex (b :: rest) := by
  fun_induction lex cs with
  | case1 => rfl
  | case2 c r hc ih =>
    rw [List.cons_append, lex, if_pos hc, ih ((finished_blank hc).1 h)]
  | case3 c r hc ih =>
    have hc : isBlank c = false := by simpa using hc
    obtain ⟨ht, hr⟩ := (finished_cons hc).1 h
    rw [List.cons_append, lex_cons hc, takeToken_continue ht hb, ih hr, List.cons_append]

/-- A token that is not open has no blanks at its end that a line end would cut off. -/
theorem trim_of_closed (ht : Lexed t) (ho : t.isOpen = false) : t.trim = t := by
  have hself : Finished t.text := by
    rw [Finished, ht.lex_text]
    exact List.forall_mem_singleton.2 ho
  refine trim_of_ended ht fun b rest hb => ?_
  rw [hself.lex_append hb, ht.lex_text]
  rfl

theorem Finished.trim (h : Finished cs) : (lex cs).map Token.trim = lex cs := by
  have hclosed : ∀ t ∈ lex cs, t.trim = t := fun t ht =>
    trim_of_closed ((ofLine_lex cs).lexed t ht) (h t ht)
  rw [List.map_congr_left hclosed, List.map_id']

/-- A name behind a text that is not finished is in the token that the last one of the text is the
beginning of. -/
theorem lex_swallowed (h : ¬Finished as) (hcs : ∀ d ∈ cs, opensText d = false ∧ d ≠ '\\')
    (rest : List Char) : ∃ (init : List Token) (last t : Token) (us : List Token),
      lex as = init ++ [last] ∧ last.isOpen = true ∧
      lex (as ++ ' ' :: (cs ++ rest)) = init ++ t :: us ∧ isText t = true ∧
      last.text ++ ' ' :: cs <+: t.text := by
  fun_induction lex as with
  | case1 => exact absurd .nil h
  | case2 c r hc ih =>
    rw [List.cons_append, lex, if_pos hc]
    exact ih fun hr => h ((finished_blank hc).2 hr)
  | case3 c r hc ih =>
    have hc : isBlank c = false := by simpa using hc
    rw [List.cons_append, lex_cons hc]
    cases ho : (takeToken c r).1.isOpen with
    | false =>
      obtain ⟨init, last, t, us, hr, hlast, hall, hin⟩ :=
        ih fun hr => h ((finished_cons hc).2 ⟨ho, hr⟩)
      rw [takeToken_continue ho (by decide), hr, hall]
      exact ⟨_ :: init, last, t, us, rfl, hlast, rfl, hin⟩
    | true =>
      have hblank : ∀ d ∈ ' ' :: cs, opensText d = false ∧ d ≠ '\\' :=
        List.forall_mem_cons.2 ⟨by decide, hcs⟩
      obtain ⟨htext, more, hm⟩ := takeToken_through ho hblank rest
      obtain ⟨hend, hself⟩ := takeToken_all ho (List.forall_mem_nil _)
      rw [List.append_nil] at hend hself
      rw [hend, lex_nil]
      exact ⟨[], _, _, _, rfl, ho, rfl, htext, more, by simpa [hself] using hm.symm⟩

end Continuing

section Unbracketed

/-- The tokens of a text besides its brackets. -/
def unbracketed (cs : List Char) : List Token :=
  (lex cs).filter fun t => !isBracket t

theorem mem_unbracketed : t ∈ unbracketed cs ↔ t ∈ lex cs ∧ isBracket t = false := by
  simp [unbracketed]

theorem isBracket_trim (t : Token) : isBracket t.trim = isBracket t := by
  cases t <;> rfl

theorem filter_trim (ts : List Token) : (ts.map Token.trim).filter (fun t => !isBracket t) =
    (ts.filter fun t => !isBracket t).map Token.trim := by
  rw [List.filter_map]
  congr 1
  exact List.filter_congr fun t _ => by rw [Function.comp_apply, isBracket_trim]

/-- Tokens that are the same but for blanks at their ends are trimmed to the same token. -/
theorem trim_eq_of_text (ht : Lexed t) (hu : Lexed u) (h : trimEnd t.text = trimEnd u.text) :
    t.trim = u.trim := by
  have htext : [t.trim] = [u.trim] := by
    rw [← ht.trim.lex_text, ← hu.trim.lex_text, ht.trim_text, hu.trim_text, h]
  exact List.head_eq_of_cons_eq htext

theorem not_text_of_blank (h : isBlank c = true) : opensText c = false ∧ c ≠ '\\' := by
  refine ⟨Bool.eq_false_iff.2 fun ho => ?_, ?_⟩
  · simp [opensText_not_blank ho] at h
  · rintro rfl
    exact absurd h (by decide)

/-- Blanks at the end of a line are seen at the end of its last token at most. -/
theorem trim_append_blanks (h : allBlank bs = true) (cs : List Char) :
    (lex (cs ++ bs)).map Token.trim = (lex cs).map Token.trim := by
  cases bs with
  | nil => rw [List.append_nil]
  | cons b bs =>
    have hb : isBlank b = true := by
      simp only [allBlank, List.all_cons, Bool.and_eq_true] at h
      exact h.1
    have hnil : lex (b :: bs) = [] := by
      have := lex_blanks h []
      rwa [List.append_nil, lex] at this
    fun_induction lex cs with
    | case1 => rw [List.nil_append, hnil]
    | case2 c r hc ih => rw [List.cons_append, lex, if_pos hc, ih]
    | case3 c r hc ih =>
      have hc : isBlank c = false := by simpa using hc
      rw [List.cons_append, lex_cons hc]
      cases ho : (takeToken c r).1.isOpen with
      | false =>
        rw [takeToken_continue ho (by simp [isStop, hb]), List.map_cons, ih, List.map_cons]
      | true =>
        have hall := takeToken_all ho (List.forall_mem_nil _)
        have hall' := takeToken_all ho fun d hd => not_text_of_blank (List.all_eq_true.1 h d hd)
        rw [List.append_nil] at hall
        rw [hall.1, hall'.1]
        simp only [List.map_cons, List.cons.injEq, and_true]
        refine trim_eq_of_text (lexed_takeToken hc _) (lexed_takeToken hc _) ?_
        rw [hall.2, hall'.2]
        exact trimEnd_append (c :: r) h

theorem filter_unwraps (h : Unwraps ts us) :
    us.filter (fun t => !isBracket t) = ts.filter fun t => !isBracket t := by
  obtain ⟨c, -, -, -, -⟩ := h
  simp [isBracket]

theorem filter_normal (ts : List Token) :
    (strip (collapse none ts)).filter (fun t => !isBracket t) =
      ts.filter fun t => !isBracket t := by
  have h := normal_unwraps ts
  generalize strip (collapse none ts) = us at h
  induction h with
  | refl => rfl
  | tail _ h ih => rw [filter_unwraps h, ih]

theorem Finished.trim_unbracketed (h : Finished cs) :
    (unbracketed cs).map Token.trim = unbracketed cs := by
  rw [unbracketed, ← filter_trim, h.trim]

/-- The tokens of a normal form are those of the line, but for brackets and blanks at the end. -/
theorem unbracketed_normalize (h : oneLine cs = true) :
    unbracketed (normalize cs) = (unbracketed cs).map Token.trim := by
  obtain ⟨l, blanks, hb, hj, ⟨ds, rfl, hds⟩, -⟩ := exists_line h
  have hcut : (unbracketed (l ++ ds)).map Token.trim = (unbracketed l).map Token.trim := by
    rw [unbracketed, unbracketed, ← filter_trim, ← filter_trim, trim_append_blanks hds]
  rw [hcut, normalize, hj, trimEnd_append _ hb, normalizeLine_eq]
  split
  · rename_i hnil
    have htrim : trimEnd [] = [] := rfl
    rw [unbracketed, unbracketed, htrim, lex_nil, List.isEmpty_iff.1 hnil]
    rfl
  · rename_i hne
    have hof := ofLine_normal l
    have hts : strip (collapse none (lex l)) ≠ [] := normal_ne_nil (by simpa using hne)
    rw [hof.trimEnd_print _ hts, unbracketed, lex_blanks (blank_indentation l), hof.trim.lex_print,
      filter_trim, filter_normal, unbracketed]

/-- Trimming leaves a word with what is before it. -/
theorem prefix_trimEnd (h : as ++ cs <+: bs) (hne : cs ≠ []) (hv : ∀ c ∈ cs, isBlank c = false) :
    as ++ cs <+: trimEnd bs := by
  obtain ⟨post, rfl⟩ := h
  obtain ⟨c, r, rfl⟩ := List.exists_cons_of_ne_nil hne
  have hvisible : ∃ d ∈ c :: r ++ post, isBlank d = false := ⟨c, by simp, hv c (by simp)⟩
  rw [List.append_assoc, trimEnd_append_visible hvisible, List.prefix_append_right_inj]
  by_cases hpost : allBlank post = true
  · have hself : trimEnd (c :: r) = c :: r := trimEnd_visible [] hne hv
    exact ⟨[], by rw [trimEnd_append _ hpost, hself, List.append_nil]⟩
  · rw [trimEnd_append_visible (exists_visible (by simpa using hpost))]
    exact List.prefix_append _ _

/-- Only the last token of a line may have blanks at its end. -/
theorem OfLine.trim_init (h : OfLine (ts ++ [t])) : ts.map Token.trim = ts := by
  have hended : ∀ u ∈ ts, u.trim = u := fun u hu =>
    trim_of_ended (h.lexed u (List.mem_append_left _ hu))
      ((List.pairwise_append.1 h.ended).2.2 u hu t (List.mem_singleton_self t))
  rw [List.map_congr_left hended, List.map_id']

theorem not_bracket_of_isText (h : isText t = true) : isBracket t = false := by
  cases t <;> first | rfl | cases h

theorem not_bracket_of_isOpen (h : t.isOpen = true) : isBracket t = false := by
  cases t <;> first | rfl | cases h

theorem isText_trim (t : Token) : isText t.trim = isText t := by
  cases t <;> rfl

/-- In front of a name that is swallowed stand the tokens of the text before, but for the last one,
which goes over the name. -/
theorem unbracketed_swallowed (h : ¬Finished as) (hne : cs ≠ [])
    (hcs : ∀ d ∈ cs, opensText d = false ∧ d ≠ '\\') (hv : ∀ d ∈ cs, isBlank d = false)
    (rest : List Char) : ∃ (kept : List Token) (last t : Token) (us : List Token),
      unbracketed as = kept ++ [last] ∧
      (unbracketed (as ++ ' ' :: (cs ++ rest))).map Token.trim = kept ++ t :: us ∧
        isText t = true ∧ last.text ++ ' ' :: cs <+: t.text := by
  obtain ⟨init, last, t, us, hinit, hlast, hall, htext, hpre⟩ := lex_swallowed h hcs rest
  have hof := ofLine_lex as
  rw [hinit] at hof
  refine ⟨init.filter fun t => !isBracket t, last, t.trim,
    (us.filter fun t => !isBracket t).map Token.trim, ?_, ?_, by rw [isText_trim, htext], ?_⟩
  · rw [unbracketed, hinit, List.filter_append, List.filter_cons, not_bracket_of_isOpen hlast]
    rfl
  · rw [unbracketed, hall, List.filter_append, List.filter_cons, not_bracket_of_isText htext,
      List.map_append, ← filter_trim, hof.trim_init]
    rfl
  · have hmem : t ∈ lex (as ++ ' ' :: (cs ++ rest)) := by simp [hall]
    have hlexed := (ofLine_lex _).lexed t hmem
    have hsplit : last.text ++ ' ' :: cs = (last.text ++ [' ']) ++ cs := by simp
    rw [hlexed.trim_text]
    rw [hsplit] at hpre ⊢
    exact prefix_trimEnd hpre hne hv

/-- The normal form of a text is a single line if the text is. -/
theorem single_normalize_iff : '\n' ∉ normalize cs ↔ oneLine cs = true := by
  refine ⟨oneLine_of_normal, fun h hn => ?_⟩
  obtain ⟨l, blanks, hb, hj, -, hl⟩ := exists_line h
  rw [normalize, hj, trimEnd_append _ hb] at hn
  obtain ⟨ds, -, he⟩ := trimEnd_append_blanks (normalizeLine l)
  rcases mem_of_mem_normalizeLine (he ▸ List.mem_append_left _ hn) with hn | hn
  · cases hn
  · exact hl hn

end Unbracketed

end Code

end Kinetics

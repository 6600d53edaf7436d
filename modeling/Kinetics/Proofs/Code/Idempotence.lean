import Kinetics.Proofs.Code.Normal
import Mathlib.Data.List.Induction

/-!
# Kinetics.Proofs.Code.Idempotence

A normal form is its own normal form (`normalize_normalize`). The printed tokens are cut again into
the same tokens, and these have no parentheses left to take away, for of two pairs around a term
the outer one stands around one that needs none. What trimming takes off the end of the text is
blank lines, and blanks within a literal or a comment that the line ends with.
-/

namespace Kinetics

namespace Code

open Text

variable {c : Char} {as bs cs : List Char} {t : Token} {ts : List Token} {n : Nat}
  {before : Option Token}

section Stripped

/-- Where no pair is left to be taken away no pair is doubled. -/
theorem innerOfDouble_of_stripFirst (hg : opensGroup before t = true)
    (h : stripFirst before (t :: .opening .round :: ts) = none) : innerOfDouble ts = none := by
  cases hd : innerOfDouble ts with
  | none => rfl
  | some us =>
    unfold innerOfDouble at hd
    split at hd
    · rename_i inside closer c rest hs
      obtain ⟨hi, b, rfl⟩ := splitGroup_balanced hs
      have hsplit : splitGroup 0 (.opening .round :: ts) =
          some (.opening .round :: (inside ++ [Token.closing b]), .closing c, rest) := by
        have happ : .opening .round :: ts =
            (.opening .round :: (inside ++ [Token.closing b])) ++ .closing c :: rest := by
          simp [← splitGroup_append hs]
        rw [happ, splitGroup_balanced_append (hi.wrap .round b)]
        simp [splitGroup]
      have htight : isTight (.opening .round :: (inside ++ [Token.closing b])) = true := by
        simp [isTight, startsKeptCall, hasLoose_wrap .round b hi]
      cases (stripFirst_group hg hsplit htight).symm.trans h
    · cases hd

theorem stripFirst_tail (h : stripFirst before (t :: ts) = none) : stripFirst (some t) ts = none := by
  rw [stripFirst] at h
  split at h
  · cases h
  · split at h
    · cases h
    · assumption

theorem collapse_of_stripFirst (h : stripFirst before ts = none) : collapse before ts = ts := by
  induction ts generalizing before with
  | nil => rw [collapse]
  | cons t ts ih =>
    have ht := ih (stripFirst_tail h)
    by_cases hg : opensGroup before t = true ∧ ts.head? = some (.opening .round)
    · obtain ⟨hg, hr⟩ := hg
      obtain ⟨us, rfl⟩ := List.head?_eq_some_iff.1 hr
      rw [collapse_single (innerOfDouble_of_stripFirst hg h), ht]
    · rw [collapse_pass fun hg' hr => hg ⟨hg', hr⟩, ht]

theorem stripFirst_strip (ts : List Token) : stripFirst none (strip ts) = none := by
  fun_induction strip ts with
  | case1 ts us hs ih => exact ih
  | case2 ts hs => exact hs

/-- Tokens without redundant parentheses stay as they are. -/
theorem strip_collapse_of_stripFirst (h : stripFirst none ts = none) :
    strip (collapse none ts) = ts := by
  rw [collapse_of_stripFirst h, strip]
  split
  · simp_all
  · rfl

end Stripped

section Trim

/-- A token without the blanks at its end. -/
def Token.trim : Token → Token
  | .quoted s => .quoted (trimEnd s)
  | .comment s => .comment (trimEnd s)
  | t => t

theorem trim_of_not_text (h : isText t = false) : t.trim = t := by
  cases t <;> first | rfl | cases h

theorem splitGroup_trim (n : Nat) (ts : List Token) : splitGroup n (ts.map Token.trim) =
    (splitGroup n ts).map fun p => (p.1.map Token.trim, p.2.1, p.2.2.map Token.trim) := by
  induction ts generalizing n with
  | nil => rfl
  | cons t ts ih =>
    cases t with
    | opening b =>
      rw [splitGroup_opening, List.map_cons, trim_of_not_text rfl, splitGroup_opening, ih, Option.map_map,
        Option.map_map]
      rfl
    | closing b =>
      cases n with
      | zero => rfl
      | succ n =>
        rw [splitGroup_closing, List.map_cons, trim_of_not_text rfl, splitGroup_closing, ih, Option.map_map,
          Option.map_map]
        rfl
    | _ =>
      rw [splitGroup_cons_turn rfl, List.map_cons, splitGroup_cons_turn rfl, ih, Option.map_map,
        Option.map_map]
      rfl

theorem hasLoose_trim (n : Nat) (ts : List Token) :
    hasLoose n (ts.map Token.trim) = hasLoose n ts := by
  induction ts generalizing n with
  | nil => rfl
  | cons t ts ih => cases t <;> simp [Token.trim, hasLoose, ih]

theorem trim_eq_opening (t : Token) (b : Bracket) : t.trim = .opening b ↔ t = .opening b := by
  cases t <;> simp [Token.trim]

theorem startsKeptCall_trim (ts : List Token) :
    startsKeptCall (ts.map Token.trim) = startsKeptCall ts := by
  cases ts with
  | nil => rfl
  | cons t ts =>
    cases t with
    | name w =>
      have hh : (ts.map Token.trim).head? = some (.opening .round) ↔
          ts.head? = some (.opening .round) := by
        cases ts <;> simp [trim_eq_opening]
      rw [List.map_cons, trim_of_not_text rfl, startsKeptCall_name, startsKeptCall_name]
      simp only [hh]
    | _ => rfl

theorem isTight_trim (ts : List Token) : isTight (ts.map Token.trim) = isTight ts := by
  rw [isTight, isTight, startsKeptCall_trim, hasLoose_trim, List.isEmpty_map]

theorem opensGroup_trim (before : Option Token) (t : Token) :
    opensGroup (before.map Token.trim) t.trim = opensGroup before t := by
  have hb : (before.map Token.trim).any Token.takesBracket = before.any Token.takesBracket := by
    cases before with
    | none => rfl
    | some t => cases t <;> rfl
  have ht : (t.trim == .opening .round) = (t == .opening .round) := by
    cases t <;> rfl
  rw [opensGroup, opensGroup, hb, ht]

/-- No pair is left to be taken away behind trimming if there was none before. -/
theorem stripFirst_trim (h : stripFirst before ts = none) :
    stripFirst (before.map Token.trim) (ts.map Token.trim) = none := by
  induction ts generalizing before with
  | nil => rfl
  | cons t ts ih =>
    have ht : stripFirst (some t.trim) (ts.map Token.trim) = none := ih (stripFirst_tail h)
    rw [List.map_cons, stripFirst_pass, ht, Option.map_none]
    intro inside c rest hg hs
    rw [opensGroup_trim] at hg
    rw [splitGroup_trim] at hs
    obtain ⟨p, hp, he⟩ := Option.map_eq_some_iff.1 hs
    cases he
    rw [isTight_trim, Bool.eq_false_iff]
    intro htight
    cases (stripFirst_group hg hp htight).symm.trans h

end Trim

section Print

theorem trimEnd_append_visible (h : ∃ c ∈ cs, isBlank c = false) (init : List Char) :
    trimEnd (init ++ cs) = init ++ trimEnd cs := by
  have hne : ¬(cs.reverse.dropWhile isBlank).isEmpty = true := by
    obtain ⟨c, hc, hb⟩ := h
    simp only [List.isEmpty_iff, List.dropWhile_eq_nil_iff]
    intro hall
    simp [hall c (List.mem_reverse.2 hc)] at hb
  rw [trimEnd, List.reverse_append, List.dropWhile_append, if_neg hne, List.reverse_append,
    List.reverse_reverse, trimEnd]

theorem trimEnd_cons (hc : isBlank c = false) (cs : List Char) :
    trimEnd (c :: cs) = c :: trimEnd cs := by
  rw [trimEnd, List.reverse_cons, List.dropWhile_append, trimEnd]
  split
  · simp_all
  · simp

theorem Lexed.visible (h : Lexed t) : ∃ c ∈ t.text, isBlank c = false := by
  obtain ⟨c, r, ht, hb, -⟩ := h
  exact ⟨c, by simp [ht], hb⟩

theorem Lexed.trim_text (h : Lexed t) : t.trim.text = trimEnd t.text := by
  cases ht : isText t with
  | true => cases t <;> first | rfl | cases ht
  | false =>
    obtain ⟨c, r, htext, hb, hc⟩ := h
    have ho : opensText c = false := by rw [← isText_takeToken c r, hc, ht]
    have hblank (d : Char) (hd : isBlank d = true) : Stop d := stop_of_isStop (by simp [isStop, hd])
    have hnone := takeToken_none hblank ho hb r
    rw [hc] at hnone
    rw [trim_of_not_text ht]
    exact (trimEnd_visible [] (by simp [htext]) hnone).symm

theorem Lexed.trim (h : Lexed t) : Lexed t.trim := by
  have htrim := h.trim_text
  obtain ⟨c, r, htext, hb, hc⟩ := h
  cases ho : opensText c with
  | false =>
    rw [trim_of_not_text (by rw [← ho, ← isText_takeToken c r, hc])]
    exact ⟨c, r, htext, hb, hc⟩
  | true =>
    obtain ⟨blanks, -, hr⟩ := trimEnd_append_blanks r
    refine ⟨c, trimEnd r, by rw [htrim, htext, trimEnd_cons hb], hb, ?_⟩
    simp only [opensText, Bool.or_eq_true, beq_iff_eq] at ho
    rcases ho with ho | rfl
    · rw [takeToken_quote ho, Prod.mk.injEq] at hc
      obtain ⟨rfl, hrest⟩ := hc
      have hall : (takeQuoted c r).1 = r := by
        have := takeQuoted_append c r
        rwa [hrest, List.append_nil] at this
      have hwithin : trimEnd r <+: (takeQuoted c r).1 := ⟨blanks, by rw [hall, hr]⟩
      rw [takeToken_quote ho, takeQuoted_within hwithin]
      simp [Token.trim, hall, trimEnd_cons hb]
    · rw [takeToken_comment, Prod.mk.injEq] at hc
      obtain ⟨rfl, -⟩ := hc
      rw [takeToken_comment]
      simp [Token.trim, trimEnd_cons hb]

/-- Only what the end of a line cuts off has blanks at its end. -/
theorem trim_of_ended (h : Lexed t) (he : Ended t) : t.trim = t := by
  obtain ⟨c, r, htext, hb, hc⟩ := h
  cases ho : opensText c with
  | false => exact trim_of_not_text (by rw [← ho, ← isText_takeToken c r, hc])
  | true =>
    -- With a blank behind it the token is the first of that line too.
    have hblank := he ' ' [] (by decide)
    rw [htext, List.cons_append, lex_cons hb, List.cons.injEq] at hblank
    obtain ⟨ht, -⟩ := hblank
    simp only [opensText, Bool.or_eq_true, beq_iff_eq] at ho
    rcases ho with ho | rfl
    · rw [takeToken_quote ho] at ht
      subst ht
      have hall : (takeQuoted c (r ++ [' '])).1 = r := by simpa [Token.text] using htext
      have happ := takeQuoted_append c (r ++ [' '])
      rw [hall, List.append_cancel_left_eq] at happ
      have hleft : (takeQuoted c (r ++ [' '])).2 ≠ [] := by simp [happ]
      obtain ⟨init, hlast⟩ := takeQuoted_last hleft
      have hend : trimEnd (c :: init ++ [c]) = c :: init ++ [c] :=
        trimEnd_visible _ (by simp) (by simpa using hb)
      simpa [Token.trim, hlast] using hend
    · rw [takeToken_comment] at ht
      subst ht
      simp [Token.text] at htext

theorem OfLine.trim (h : OfLine ts) : OfLine (ts.map Token.trim) := by
  refine ⟨List.forall_mem_map.2 fun t ht => (h.lexed t ht).trim, List.pairwise_map.2 ?_⟩
  exact h.ended.imp_of_mem fun ht _ he => by rwa [trim_of_ended (h.lexed _ ht) he]

theorem spaced_trim (before : Token) (sign : Bool) (t : Token) :
    spaced before sign t.trim = spaced before sign t := by
  cases t <;> cases before <;> rfl

theorem isSign_trim (before : Option Token) (t : Token) : isSign before t.trim = isSign before t := by
  cases t <;> rfl

theorem trimEnd_printFrom {before : Token} {sign : Bool} (h : OfLine (before :: ts))
    (init : List Char) : trimEnd (init ++ (before.text ++ printFrom before sign ts)) =
      init ++ (before.trim.text ++ printFrom before.trim sign (ts.map Token.trim)) := by
  induction ts generalizing before sign init with
  | nil =>
    have hb := h.lexed before (by simp)
    rw [List.map_nil, printFrom, printFrom, List.append_nil, List.append_nil,
      trimEnd_append_visible hb.visible, hb.trim_text]
  | cons t ts ih =>
    have hb : before.trim = before :=
      trim_of_ended (h.lexed before (by simp)) ((List.pairwise_cons.1 h.ended).1 t (by simp))
    have hrest := @ih t (isSign (some before) t) (h.sublist (List.sublist_cons_self before _))
      (init ++ (before.text ++ if spaced before sign t then [' '] else []))
    simpa [printFrom, hb, spaced_trim, isSign_trim] using hrest

/-- What trimming takes off a printed line it takes off the last token. -/
theorem OfLine.trimEnd_print (h : OfLine ts) (init : List Char) (hne : ts ≠ []) :
    trimEnd (init ++ print ts) = init ++ print (ts.map Token.trim) := by
  cases ts with
  | nil => exact absurd rfl hne
  | cons t ts =>
    rw [print, trimEnd_printFrom h, List.map_cons, print, isSign_trim]

end Print

section Line

/-- A line of tokens without redundant parentheses is in normal form. -/
theorem normalizeLine_print (h : OfLine ts) (hne : ts ≠ []) (hs : stripFirst none ts = none)
    (hb : allBlank bs = true) : normalizeLine (bs ++ print ts) = bs ++ print ts := by
  have hindent : indentation (bs ++ print ts) = bs := by
    cases ts with
    | nil => exact absurd rfl hne
    | cons t ts =>
      obtain ⟨c, r, htext, hc, -⟩ := h.lexed t (by simp)
      rw [indentation, print, htext, List.takeWhile_append_of_pos (List.all_eq_true.1 hb)]
      simp [hc]
  rw [normalizeLine_eq, lex_blanks hb, h.lex_print, if_neg (by simpa using hne), hindent,
    strip_collapse_of_stripFirst hs]

/-- A line in normal form, with or without the blanks at its end. -/
structure Stable (l : List Char) : Prop where
  whole : normalizeLine l = l
  trimmed : normalizeLine (trimEnd l) = trimEnd l
  visible : l = [] ∨ ∃ c ∈ l, isBlank c = false

theorem stable_normalizeLine (l : List Char) : Stable (normalizeLine l) := by
  rw [normalizeLine_eq]
  split
  · have hnil : normalizeLine [] = [] := normalizeLine_blank rfl
    exact ⟨hnil, hnil, .inl rfl⟩
  · rename_i hl
    have hne : strip (collapse none (lex l)) ≠ [] := normal_ne_nil (by simpa using hl)
    have hof := ofLine_normal l
    have hs := stripFirst_strip (collapse none (lex l))
    generalize strip (collapse none (lex l)) = ts at hne hof hs
    refine ⟨normalizeLine_print hof hne hs (blank_indentation l), ?_, .inr ?_⟩
    · rw [hof.trimEnd_print _ hne]
      exact normalizeLine_print hof.trim (by simpa using hne) (stripFirst_trim hs)
        (blank_indentation l)
    · obtain ⟨t, ht⟩ := List.exists_mem_of_ne_nil ts hne
      obtain ⟨c, hc, hb⟩ := (hof.lexed t ht).visible
      exact ⟨c, List.mem_append_right _ (mem_print ht hc), hb⟩

end Line

section Lines

/-- Every carriage return has a line feed right behind it. -/
def returnsPaired : List Char → Bool
  | [] => true
  | c :: r => (c != '\r' || r.head? == some '\n') && returnsPaired r

theorem dropReturn_of_not_mem (h : '\r' ∉ cs) : dropReturn cs = cs := by
  unfold dropReturn
  split
  · simp at h
  · rfl

/-- A line that is gathered has a carriage return only in front of a line feed. -/
theorem no_return_linesFrom {g : List Char} (h : returnsPaired cs = true) (hn : '\n' ∉ g)
    (hr : '\r' ∉ g ∨ ∃ r, g = '\r' :: r ∧ '\r' ∉ r ∧ cs.head? = some '\n') :
    ∀ l ∈ linesFrom g cs, '\n' ∉ l ∧ '\r' ∉ l := by
  induction cs generalizing g with
  | nil =>
    have hr : '\r' ∉ g := hr.resolve_right (by simp)
    intro l hl
    rw [linesFrom] at hl
    split at hl
    · cases hl
    · obtain rfl := List.mem_singleton.1 hl
      simpa using ⟨hn, hr⟩
  | cons c cs ih =>
    simp only [returnsPaired, Bool.and_eq_true, Bool.or_eq_true, bne_iff_ne, ne_eq, beq_iff_eq] at h
    rw [linesFrom]
    split
    · refine List.forall_mem_cons.2 ⟨?_, ih h.2 (by simp) (.inl (by simp))⟩
      rcases hr with hr | ⟨r, rfl, hr, -⟩
      · rw [dropReturn_of_not_mem hr]
        simpa using ⟨hn, hr⟩
      · simpa [dropReturn] using ⟨fun h => hn (List.mem_cons_of_mem _ h), hr⟩
    · rename_i hc
      have hr : '\r' ∉ g := by
        rcases hr with hr | ⟨_, _, _, hh⟩
        · exact hr
        · exact absurd (by simpa using hh) hc
      refine ih h.2 (by simp [hn, Ne.symm hc]) ?_
      rcases h.1 with hne | hh
      · exact .inl (by simp [hr, Ne.symm hne])
      · by_cases he : c = '\r'
        · exact .inr ⟨g, by rw [he], hr, hh⟩
        · exact .inl (by simp [hr, Ne.symm he])

/-- Lines that are joined have a line feed behind each but the last. -/
theorem joinLines_concat (ls : List (List Char)) (l : List Char) :
    joinLines (ls ++ [l]) = ls.flatMap (· ++ ['\n']) ++ l := by
  have hfeeds (ms : List (List Char)) : (ms ++ [l]).flatMap ('\n' :: ·) =
      '\n' :: (ms.flatMap (· ++ ['\n']) ++ l) := by
    induction ms with
    | nil => simp
    | cons m ms ih => simp [List.flatMap_append] at ih ⊢; exact ih
  cases ls with
  | nil => simp [joinLines_cons]
  | cons m ms => simp [joinLines_cons, hfeeds]

theorem lines_joinLines {ls : List (List Char)} {l : List Char}
    (h : ∀ m ∈ ls, '\n' ∉ m ∧ '\r' ∉ m) (hl : '\n' ∉ l) (hne : l ≠ []) :
    lines (joinLines (ls ++ [l])) = ls ++ [l] := by
  rw [joinLines_concat]
  induction ls with
  | nil => exact lines_single hl hne
  | cons m ms ih =>
    obtain ⟨hm, hms⟩ := List.forall_mem_cons.1 h
    have hcut : (m :: ms).flatMap (· ++ ['\n']) ++ l = m ++ '\n' :: (ms.flatMap (· ++ ['\n']) ++ l) := by
      simp
    rw [hcut, lines, linesFrom_append [] hm.1, List.append_nil,
      dropReturn_of_not_mem (by simpa using hm.2), List.reverse_reverse, ih hms, List.cons_append]

theorem visible_trimEnd (h : ∃ c ∈ cs, isBlank c = false) : ∃ c ∈ trimEnd cs, isBlank c = false := by
  obtain ⟨c, hc, hb⟩ := h
  obtain ⟨as, bs, rfl⟩ := List.append_of_mem hc
  exact ⟨c, mem_trimEnd ⟨c, by simp, hb⟩, hb⟩

theorem trimEnd_trimEnd (cs : List Char) : trimEnd (trimEnd cs) = trimEnd cs := by
  obtain ⟨blanks, hb, he⟩ := trimEnd_append_blanks cs
  have h := trimEnd_append (trimEnd cs) (List.all_eq_true.2 hb)
  rw [he] at h
  exact h.symm

theorem trimEnd_joinLines_nil (ls : List (List Char)) :
    trimEnd (joinLines (ls ++ [[]])) = trimEnd (joinLines ls) := by
  rcases List.eq_nil_or_concat ls with rfl | ⟨ms, m, rfl⟩
  · rfl
  · rw [List.concat_eq_append, joinLines_concat, joinLines_concat, List.append_nil,
      List.flatMap_append, List.flatMap_singleton, ← List.append_assoc]
    exact trimEnd_append _ (by decide)

/-- Joined lines that are trimmed are cut into these lines again, the last of them trimmed. -/
theorem lines_trimEnd_joinLines {ls : List (List Char)} {l : List Char}
    (h : ∀ m ∈ ls, '\n' ∉ m ∧ '\r' ∉ m) (hl : '\n' ∉ l) (hv : ∃ c ∈ l, isBlank c = false) :
    lines (trimEnd (joinLines (ls ++ [l]))) = ls ++ [trimEnd l] := by
  obtain ⟨blanks, -, he⟩ := trimEnd_append_blanks l
  have hfeed : '\n' ∉ trimEnd l := fun hm => hl (he ▸ List.mem_append_left _ hm)
  have hne : trimEnd l ≠ [] := by
    obtain ⟨c, hc, -⟩ := visible_trimEnd hv
    exact List.ne_nil_of_mem hc
  have htrim : trimEnd (joinLines (ls ++ [l])) = joinLines (ls ++ [trimEnd l]) := by
    rw [joinLines_concat, joinLines_concat, trimEnd_append_visible hv]
  rw [htrim, lines_joinLines h hfeed hne]

/-- Of stable lines that are joined the trimmed text is its own normal form. -/
theorem normalize_trimEnd_joinLines {ls : List (List Char)} (h : ∀ l ∈ ls, Stable l)
    (hline : ∀ l ∈ ls, '\n' ∉ l ∧ '\r' ∉ l) :
    normalize (trimEnd (joinLines ls)) = trimEnd (joinLines ls) := by
  induction ls using List.reverseRecOn with
  | nil => rfl
  | append_singleton ls l ih =>
    obtain ⟨hls, hl⟩ := List.forall_mem_append.1 h
    obtain ⟨hlines, hlast⟩ := List.forall_mem_append.1 hline
    have hl := hl l (by simp)
    rcases hl.visible with rfl | hv
    · rw [trimEnd_joinLines_nil]
      exact ih hls hlines
    · have hmap : (ls ++ [trimEnd l]).map normalizeLine = ls ++ [trimEnd l] := by
        rw [List.map_append, List.map_singleton, hl.trimmed,
          List.map_congr_left fun m hm => (hls m hm).whole, List.map_id']
      rw [normalize, lines_trimEnd_joinLines hlines (hlast l (by simp)).1 hv, hmap,
        joinLines_concat, joinLines_concat, trimEnd_append_visible (visible_trimEnd hv),
        trimEnd_trimEnd, trimEnd_append_visible hv]

/-- A line without line ends has none in its normal form. -/
theorem single_normalizeLine {l : List Char} (h : '\n' ∉ l ∧ '\r' ∉ l) :
    '\n' ∉ normalizeLine l ∧ '\r' ∉ normalizeLine l :=
  ⟨fun hc => (mem_of_mem_normalizeLine hc).elim (by decide) h.1,
    fun hc => (mem_of_mem_normalizeLine hc).elim (by decide) h.2⟩

end Lines

/-- The normal form of a text whose carriage returns belong to line ends is its own normal form. -/
theorem normalize_normalize (h : returnsPaired cs = true) :
    normalize (normalize cs) = normalize cs := by
  rw [normalize.eq_1 cs]
  refine normalize_trimEnd_joinLines ?_ ?_
  · simpa using fun l _ => stable_normalizeLine l
  · exact List.forall_mem_map.2 fun l hl =>
      single_normalizeLine (no_return_linesFrom h (by simp) (.inl (by simp)) l hl)

theorem normalizeString_idempotent {code : String} (h : returnsPaired code.toList = true) :
    normalizeString (normalizeString code) = normalizeString code := by
  rw [normalizeString, normalizeString, String.toList_ofList, normalize_normalize h]

/-- An indented line with brackets that do not match, and a literal without an end. -/
theorem normalizeString_idempotent_unclosed :
    returnsPaired "  f((a]) * (b\r\n\r\n'c  # d  ".toList = true ∧
      normalizeString (normalizeString "  f((a]) * (b\r\n\r\n'c  # d  ") =
        normalizeString "  f((a]) * (b\r\n\r\n'c  # d  " := by
  have h : returnsPaired "  f((a]) * (b\r\n\r\n'c  # d  ".toList = true := by decide +kernel
  exact ⟨h, normalizeString_idempotent h⟩

end Code

end Kinetics

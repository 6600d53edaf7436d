import Kinetics.Proofs.Code.Printing

/-!
# Kinetics.Proofs.Code.Normal

What can be told from the normal form of a text. Quotes and number signs are in it wherever they
are in the text (`plain_of_normal`), and so is a line feed in front of anything but blanks
(`oneLine_of_normal`). Of a single line without literals and comments the normal form has the
tokens without the redundant parentheses (`lex_normalize`).
-/

namespace Kinetics

namespace Code

open Text
open Relation (ReflTransGen)

variable {c : Char} {as bs cs ds r : List Char} {t : Token} {ts us : List Token}

section Unwrapping

def isBracket : Token → Bool
  | .opening _ => true
  | .closing _ => true
  | _ => false

theorem Unwraps.sublist (h : Unwraps ts us) : us.Sublist ts := by
  obtain ⟨c, -, -, -, -⟩ := h
  rename_i before inside after
  refine .append_left (.cons _ ?_) before
  exact .append_left (.cons _ (.refl _)) inside

theorem Unwraps.mem (h : Unwraps ts us) (ht : t ∈ ts) (hb : isBracket t = false) : t ∈ us := by
  obtain ⟨c, -, -, -, -⟩ := h
  simp only [List.mem_append, List.mem_cons] at ht ⊢
  rcases ht with ht | rfl | ht | rfl | ht
  · exact .inl ht
  · cases hb
  · exact .inr (.inl ht)
  · cases hb
  · exact .inr (.inr ht)

theorem Unwraps.ne_nil (h : Unwraps ts us) : us ≠ [] := by
  obtain ⟨c, -, -, -, hi⟩ := h
  simp [hi]

theorem normal_sublist (ts : List Token) : (strip (collapse none ts)).Sublist ts := by
  have h := normal_unwraps ts
  generalize strip (collapse none ts) = us at h
  induction h with
  | refl => exact .refl _
  | tail _ h ih => exact h.sublist.trans ih

theorem mem_normal (ht : t ∈ ts) (hb : isBracket t = false) : t ∈ strip (collapse none ts) := by
  have h := normal_unwraps ts
  generalize strip (collapse none ts) = us at h
  induction h with
  | refl => exact ht
  | tail _ h ih => exact h.mem ih hb

theorem normal_ne_nil (hne : ts ≠ []) : strip (collapse none ts) ≠ [] := by
  have h := normal_unwraps ts
  generalize strip (collapse none ts) = us at h
  cases h with
  | refl => exact hne
  | tail _ h => exact h.ne_nil

end Unwrapping

section Text

theorem mem_lex (hc : c ∈ cs) (hb : isBlank c = false) : ∃ t ∈ lex cs, c ∈ t.text := by
  fun_induction lex cs with
  | case1 => cases hc
  | case2 d r hd ih =>
    rcases List.mem_cons.1 hc with rfl | hc
    · simp [hd] at hb
    · exact ih hc
  | case3 d r hd ih =>
    rw [← takeToken_append d r, List.mem_append] at hc
    rcases hc with hc | hc
    · exact ⟨_, by simp, hc⟩
    · obtain ⟨t, ht, htc⟩ := ih hc
      exact ⟨t, List.mem_cons_of_mem _ ht, htc⟩

theorem mem_of_mem_lex (ht : t ∈ lex cs) (hc : c ∈ t.text) : c ∈ cs := by
  fun_induction lex cs with
  | case1 => cases ht
  | case2 d r hd ih => exact List.mem_cons_of_mem _ (ih ht)
  | case3 d r hd ih =>
    rw [← takeToken_append d r, List.mem_append]
    rcases List.mem_cons.1 ht with rfl | ht
    · exact .inl hc
    · exact .inr (ih ht)

theorem opensText_not_blank (h : opensText c = true) : isBlank c = false := by
  simp only [opensText, Bool.or_eq_true, beq_iff_eq] at h
  rcases h with (rfl | rfl) | rfl <;> decide

/-- Without literals and comments among its tokens a line has none. -/
theorem plain_of_lex (h : ∀ t ∈ lex cs, isText t = false) : Plain cs := by
  fun_induction lex cs with
  | case1 => exact List.forall_mem_nil _
  | case2 d r hd ih =>
    intro c hc
    rcases List.mem_cons.1 hc with rfl | hc
    · rw [Bool.eq_false_iff]
      intro ho
      simp [opensText_not_blank ho] at hd
    · exact ih h c hc
  | case3 d r hd ih =>
    intro c hc
    rw [← takeToken_append d r, List.mem_append] at hc
    rcases hc with hc | hc
    · refine plain_takeToken ?_ r c hc
      rw [← isText_takeToken d r]
      exact h _ List.mem_cons_self
    · exact ih (fun t ht => h t (List.mem_cons_of_mem _ ht)) c hc

end Text

section Blank

theorem exists_visible (h : allBlank cs = false) : ∃ c ∈ cs, isBlank c = false := by
  simpa [allBlank] using h

theorem lex_blanks (h : allBlank as = true) (cs : List Char) : lex (as ++ cs) = lex cs := by
  induction as with
  | nil => rfl
  | cons c as ih =>
    simp only [allBlank, List.all_cons, Bool.and_eq_true] at h
    rw [List.cons_append, lex, if_pos h.1, ih h.2]

theorem lex_append_blanks (hp : Plain cs) (h : allBlank bs = true) : lex (cs ++ bs) = lex cs := by
  cases bs with
  | nil => rw [List.append_nil]
  | cons b bs =>
    have hb := h
    simp only [allBlank, List.all_cons, Bool.and_eq_true] at hb
    have hnil := lex_blanks h []
    rw [List.append_nil, lex] at hnil
    rw [lex_append hp (by simp [isStop, hb.1]), hnil, List.append_nil]

theorem blank_indentation (cs : List Char) : allBlank (indentation cs) = true :=
  List.all_takeWhile

theorem lex_trimStart (cs : List Char) : lex (trimStart cs) = lex cs := by
  have h := lex_blanks (blank_indentation cs) (trimStart cs)
  rwa [indentation_append_trimStart, eq_comm] at h

theorem Plain.left (h : Plain (as ++ bs)) : Plain as :=
  fun c hc => h c (List.mem_append_left _ hc)

theorem lex_trimEnd (hp : Plain cs) : lex (trimEnd cs) = lex cs := by
  obtain ⟨blanks, hb, he⟩ := trimEnd_append_blanks cs
  have h := lex_append_blanks (he ▸ hp).left (List.all_eq_true.2 hb)
  rwa [he, eq_comm] at h

theorem trimEnd_append (cs : List Char) (h : allBlank bs = true) :
    trimEnd (cs ++ bs) = trimEnd cs := by
  have hall : ∀ b ∈ bs.reverse, isBlank b = true := fun b hb =>
    List.all_eq_true.1 h b (List.mem_reverse.1 hb)
  rw [trimEnd, List.reverse_append, List.dropWhile_append_of_pos hall, trimEnd]

theorem mem_trimEnd (h : ∃ d ∈ c :: bs, isBlank d = false) : c ∈ trimEnd (as ++ c :: bs) := by
  obtain ⟨d, hd, hb⟩ := h
  obtain ⟨blanks, hblanks, he⟩ := trimEnd_append_blanks (as ++ c :: bs)
  have hnot (xs : List Char) : blanks ≠ xs ++ c :: bs := by
    rintro rfl
    simp [hblanks d (List.mem_append_right _ hd)] at hb
  rcases List.append_eq_append_iff.1 he with ⟨xs, -, hx⟩ | ⟨xs, hx, hx'⟩
  · exact absurd hx (hnot xs)
  · cases xs with
    | nil => exact absurd hx'.symm (hnot [])
    | cons x xs =>
      cases hx'
      rw [hx]
      simp

end Blank

section Line

theorem mem_print (ht : t ∈ ts) (hc : c ∈ t.text) : c ∈ print ts := by
  have hfrom (before : Token) (sign : Bool) {us : List Token} (ht : t ∈ us) :
      c ∈ printFrom before sign us := by
    induction us generalizing before sign with
    | nil => cases ht
    | cons u us ih =>
      simp only [printFrom, List.mem_append]
      rcases List.mem_cons.1 ht with rfl | ht
      · exact .inl (.inr hc)
      · exact .inr (ih _ _ ht)
  cases ts with
  | nil => cases ht
  | cons u us =>
    rw [print, List.mem_append]
    rcases List.mem_cons.1 ht with rfl | ht
    · exact .inl hc
    · exact .inr (hfrom u _ ht)

theorem mem_of_mem_print (hc : c ∈ print ts) : c = ' ' ∨ ∃ t ∈ ts, c ∈ t.text := by
  have hfrom (before : Token) (sign : Bool) {us : List Token} (hc : c ∈ printFrom before sign us) :
      c = ' ' ∨ ∃ t ∈ us, c ∈ t.text := by
    induction us generalizing before sign with
    | nil => cases hc
    | cons u us ih =>
      simp only [printFrom, List.mem_append] at hc
      rcases hc with (hc | hc) | hc
      · split at hc
        · exact .inl (List.mem_singleton.1 hc)
        · cases hc
      · exact .inr ⟨u, by simp, hc⟩
      · rcases ih _ _ hc with hc | ⟨t, ht, h⟩
        · exact .inl hc
        · exact .inr ⟨t, List.mem_cons_of_mem _ ht, h⟩
  cases ts with
  | nil => cases hc
  | cons u us =>
    rw [print, List.mem_append] at hc
    rcases hc with hc | hc
    · exact .inr ⟨u, by simp, hc⟩
    · rcases hfrom u _ hc with hc | ⟨t, ht, h⟩
      · exact .inl hc
      · exact .inr ⟨t, List.mem_cons_of_mem _ ht, h⟩

theorem normalizeLine_eq (l : List Char) : normalizeLine l =
    if (lex l).isEmpty then [] else indentation l ++ print (strip (collapse none (lex l))) := by
  rw [normalizeLine, normalTokens, lex_trimStart]

/-- A character besides blanks that is in the tokens stays in the line. -/
theorem mem_normalizeLine (hc : c ∈ cs) (hb : isBlank c = false) (ho : opensText c = true) :
    c ∈ normalizeLine cs := by
  obtain ⟨t, ht, htc⟩ := mem_lex hc hb
  have hbracket : isBracket t = false := by
    cases t with
    | opening b => cases b <;> simp_all [Token.text, Bracket.opener, opensText]
    | closing b => cases b <;> simp_all [Token.text, Bracket.closer, opensText]
    | _ => rfl
  rw [normalizeLine_eq, if_neg (by simp [List.ne_nil_of_mem ht])]
  exact List.mem_append_right _ (mem_print (mem_normal ht hbracket) htc)

theorem visible_of_mem_lex (ht : t ∈ lex cs) : ∃ c ∈ t.text, isBlank c = false := by
  fun_induction lex cs with
  | case1 => cases ht
  | case2 d r hd ih => exact ih ht
  | case3 d r hd ih =>
    rcases List.mem_cons.1 ht with rfl | ht
    · have happ := takeToken_append d r
      have hne := takeToken_text_ne_nil d r
      refine ⟨d, ?_, by simpa using hd⟩
      generalize (takeToken d r).1.text = u at happ hne ⊢
      cases u with
      | nil => exact absurd rfl hne
      | cons e u => simp_all
    · exact ih ht

/-- A line with more than blanks stays one. -/
theorem visible_normalizeLine (h : allBlank cs = false) :
    ∃ c ∈ normalizeLine cs, isBlank c = false := by
  obtain ⟨c, hc, hb⟩ := exists_visible h
  obtain ⟨t, ht, -⟩ := mem_lex hc hb
  have hne := List.ne_nil_of_mem ht
  obtain ⟨u, hu⟩ := List.exists_mem_of_ne_nil _ (normal_ne_nil hne)
  obtain ⟨d, hd, hdb⟩ := visible_of_mem_lex ((normal_sublist _).subset hu)
  rw [normalizeLine_eq, if_neg (by simp [hne])]
  exact ⟨d, List.mem_append_right _ (mem_print hu hd), hdb⟩

theorem normalizeLine_blank (h : allBlank cs = true) : normalizeLine cs = [] := by
  have hnil := lex_blanks h []
  rw [List.append_nil, lex] at hnil
  rw [normalizeLine_eq, hnil]
  rfl

theorem mem_of_mem_normalizeLine (hc : c ∈ normalizeLine cs) : c = ' ' ∨ c ∈ cs := by
  rw [normalizeLine_eq] at hc
  split at hc
  · cases hc
  · rcases List.mem_append.1 hc with hc | hc
    · exact .inr ((List.takeWhile_sublist _).subset hc)
    · refine (mem_of_mem_print hc).imp_right fun ⟨t, ht, htc⟩ => ?_
      exact mem_of_mem_lex ((normal_sublist _).subset ht) htc

theorem plain_normalizeLine (hp : Plain cs) : Plain (normalizeLine cs) := by
  intro c hc
  rcases mem_of_mem_normalizeLine hc with rfl | hc
  · rfl
  · exact hp c hc

theorem ofLine_normal (cs : List Char) : OfLine (strip (collapse none (lex cs))) :=
  (ofLine_lex cs).sublist (normal_sublist _)

theorem lex_normalizeLine (cs : List Char) :
    lex (normalizeLine cs) = strip (collapse none (lex cs)) := by
  rw [normalizeLine_eq]
  split
  · rename_i he
    have hnil : lex cs = [] := by simpa using he
    have := normal_sublist (lex cs)
    rw [hnil] at this ⊢
    rw [List.sublist_nil.1 this, lex]
  · rw [lex_blanks (blank_indentation cs)]
    exact (ofLine_normal cs).lex_print

end Line

section Lines

theorem mem_dropReturn (hc : c ∈ cs) (hr : c ≠ '\r') : c ∈ dropReturn cs := by
  unfold dropReturn
  split
  · exact (List.mem_cons.1 hc).resolve_left hr
  · exact hc

theorem dropReturn_suffix (cs : List Char) : ∃ as, allBlank as = true ∧ as ++ dropReturn cs = cs := by
  unfold dropReturn
  split
  · exact ⟨['\r'], by decide, rfl⟩
  · exact ⟨[], rfl, rfl⟩

theorem linesFrom_append (g : List Char) (h : '\n' ∉ as) (bs : List Char) :
    linesFrom g (as ++ '\n' :: bs) = (dropReturn (as.reverse ++ g)).reverse :: lines bs := by
  induction as generalizing g with
  | nil => rw [List.nil_append, linesFrom, if_pos rfl]; rfl
  | cons c as ih =>
    simp only [List.mem_cons, not_or] at h
    rw [List.cons_append, linesFrom, if_neg (fun e => h.1 e.symm), ih _ h.2]
    simp

theorem lines_single (h : '\n' ∉ cs) (hne : cs ≠ []) : lines cs = [cs] :=
  linesFrom_single h (.inr hne)

theorem mem_linesFrom {g : List Char} (hc : c ∈ g ∨ c ∈ cs) (hb : isBlank c = false) :
    ∃ l ∈ linesFrom g cs, c ∈ l := by
  have hn : c ≠ '\n' := by
    rintro rfl
    exact absurd hb (by decide)
  have hr : c ≠ '\r' := by
    rintro rfl
    exact absurd hb (by decide)
  induction cs generalizing g with
  | nil =>
    have hc : c ∈ g := by simpa using hc
    rw [linesFrom, if_neg (by simp [List.ne_nil_of_mem hc])]
    exact ⟨g.reverse, by simp, by simpa using hc⟩
  | cons d r ih =>
    rw [linesFrom]
    split
    · rcases hc with hc | hc
      · exact ⟨_, List.mem_cons_self, List.mem_reverse.2 (mem_dropReturn hc hr)⟩
      · have hc : c ∈ r := (List.mem_cons.1 hc).resolve_left (by simp_all)
        obtain ⟨l, hl, hcl⟩ := ih (.inr hc)
        exact ⟨l, List.mem_cons_of_mem _ hl, hcl⟩
    · exact ih (by simpa [or_assoc, or_comm, or_left_comm] using hc)

theorem mem_of_mem_linesFrom {g l : List Char} (hl : l ∈ linesFrom g cs) (hc : c ∈ l) :
    c ∈ g ∨ c ∈ cs := by
  induction cs generalizing g with
  | nil =>
    rw [linesFrom] at hl
    split at hl
    · cases hl
    · rw [List.mem_singleton.1 hl] at hc
      exact .inl (List.mem_reverse.1 hc)
  | cons d r ih =>
    rw [linesFrom] at hl
    split at hl
    · rcases List.mem_cons.1 hl with rfl | hl
      · obtain ⟨as, -, he⟩ := dropReturn_suffix g
        exact .inl (he ▸ List.mem_append_right _ (List.mem_reverse.1 hc))
      · exact .inr (List.mem_cons_of_mem _ ((ih hl).resolve_left (by simp)))
    · rcases ih hl with h | h
      · rcases List.mem_cons.1 h with rfl | h
        · exact .inr (by simp)
        · exact .inl h
      · exact .inr (List.mem_cons_of_mem _ h)

theorem joinLines_cons (l : List Char) (ls : List (List Char)) :
    joinLines (l :: ls) = l ++ ls.flatMap ('\n' :: ·) := by
  induction ls generalizing l with
  | nil => simp [joinLines, List.intercalate]
  | cons m ls ih =>
    have h : joinLines (l :: m :: ls) = l ++ '\n' :: joinLines (m :: ls) := by
      simp [joinLines, List.intercalate]
    rw [h, ih, List.flatMap_cons, List.cons_append]

theorem mem_joinLines {l : List Char} {ls : List (List Char)} (hl : l ∈ ls) (hc : c ∈ l) :
    c ∈ joinLines ls := by
  cases ls with
  | nil => cases hl
  | cons m ls =>
    rw [joinLines_cons, List.mem_append]
    rcases List.mem_cons.1 hl with rfl | hl
    · exact .inl hc
    · exact .inr (List.mem_flatMap.2 ⟨l, hl, List.mem_cons_of_mem _ hc⟩)

end Lines

section Normal

/-- Nothing but blanks behind a line feed. -/
def oneLine : List Char → Bool
  | [] => true
  | c :: r => if c = '\n' then allBlank r else oneLine r

theorem allBlank_sublist (h : as.Sublist bs) (hb : allBlank bs = true) : allBlank as = true :=
  List.all_eq_true.2 fun c hc => List.all_eq_true.1 hb c (h.subset hc)

theorem oneLine_sublist (h : as.Sublist bs) (hb : oneLine bs = true) : oneLine as = true := by
  have hblank {cs : List Char} (hc : allBlank cs = true) : oneLine cs = true := by
    induction cs with
    | nil => rfl
    | cons c cs ih =>
      simp only [allBlank, List.all_cons, Bool.and_eq_true] at hc
      rw [oneLine]
      split
      · exact hc.2
      · exact ih hc.2
  induction h with
  | slnil => rfl
  | cons c h ih =>
    rw [oneLine] at hb
    split at hb
    · exact hblank (allBlank_sublist h hb)
    · exact ih hb
  | cons_cons c h ih =>
    rw [oneLine] at hb ⊢
    split at hb
    · rw [if_pos ‹_›]
      exact allBlank_sublist h hb
    · rw [if_neg ‹_›]
      exact ih hb

theorem oneLine_append (h : '\n' ∉ as) (bs : List Char) :
    oneLine (as ++ '\n' :: bs) = allBlank bs := by
  induction as with
  | nil => rfl
  | cons c as ih =>
    simp only [List.mem_cons, not_or] at h
    rw [List.cons_append, oneLine, if_neg (fun e => h.1 e.symm), ih h.2]

theorem oneLine_single (h : '\n' ∉ cs) : oneLine cs = true := by
  induction cs with
  | nil => rfl
  | cons c cs ih =>
    simp only [List.mem_cons, not_or] at h
    rw [oneLine, if_neg (fun e => h.1 e.symm), ih h.2]

/-- The line of a text that has lines of blanks besides. -/
theorem exists_line (h : oneLine cs = true) : ∃ l blanks, allBlank blanks = true ∧
    joinLines ((lines cs).map normalizeLine) = normalizeLine l ++ blanks ∧
    (∃ ds, l ++ ds = cs ∧ allBlank ds = true) ∧ '\n' ∉ l := by
  by_cases hn : '\n' ∈ cs
  · obtain ⟨as, bs, rfl, has⟩ := List.eq_append_cons_of_mem hn
    rw [oneLine_append has] at h
    obtain ⟨ds, hds, he⟩ := dropReturn_suffix as.reverse
    have has' : (dropReturn as.reverse).reverse ++ ds.reverse = as := by
      rw [← List.reverse_append, he, List.reverse_reverse]
    refine ⟨(dropReturn as.reverse).reverse, ((lines bs).map normalizeLine).flatMap ('\n' :: ·),
      ?_, ?_, ⟨ds.reverse ++ '\n' :: bs, ?_, ?_⟩, fun hm => has ?_⟩
    · refine List.all_eq_true.2 fun c hc => ?_
      obtain ⟨l, hl, hc⟩ := List.mem_flatMap.1 hc
      obtain ⟨m, hm, rfl⟩ := List.mem_map.1 hl
      have hblank : allBlank m = true := List.all_eq_true.2 fun d hd =>
        List.all_eq_true.1 h d ((mem_of_mem_linesFrom hm hd).resolve_left (by simp))
      rw [normalizeLine_blank hblank, List.mem_singleton] at hc
      rw [hc]
      decide
    · rw [lines, linesFrom_append [] has, List.append_nil, List.map_cons, joinLines_cons]
    · rw [← List.append_assoc, has']
    · simp only [allBlank, List.all_append, List.all_reverse, List.all_cons, Bool.and_eq_true]
      exact ⟨hds, by decide, h⟩
    · rw [← has']
      exact List.mem_append_left _ hm
  · cases cs with
    | nil => exact ⟨[], [], rfl, by rw [normalizeLine_blank rfl]; rfl, ⟨[], rfl, rfl⟩, hn⟩
    | cons c cs =>
      refine ⟨c :: cs, [], rfl, ?_, ⟨[], by simp, rfl⟩, hn⟩
      rw [lines_single hn (by simp), List.append_nil, List.map_singleton, joinLines_cons]
      simp

theorem normalize_line (h : '\n' ∉ cs) : normalize cs = trimEnd (normalizeLine cs) := by
  cases cs with
  | nil => rw [normalizeLine_blank rfl]; rfl
  | cons c cs => rw [normalize, lines_single h (by simp), List.map_singleton, joinLines_cons]; simp

/-- The tokens of a normal form. -/
theorem lex_normalize (hp : Plain cs) (h : oneLine cs = true) :
    lex (normalize cs) = strip (collapse none (lex cs)) ∧ '\n' ∉ normalize cs := by
  obtain ⟨l, blanks, hb, hj, ⟨ds, rfl, hds⟩, hn⟩ := exists_line h
  rw [normalize, hj, trimEnd_append _ hb, lex_trimEnd (plain_normalizeLine hp.left),
    lex_normalizeLine, lex_append_blanks hp.left hds]
  refine ⟨rfl, fun hm => ?_⟩
  obtain ⟨bs, -, he⟩ := trimEnd_append_blanks (normalizeLine l)
  rcases mem_of_mem_normalizeLine (he ▸ List.mem_append_left _ hm) with h | h
  · cases h
  · exact hn h

/-- A text without tokens has no normal form to speak of. -/
theorem normalize_of_lex_nil (hp : Plain cs) (h : oneLine cs = true) (hl : lex cs = []) :
    normalize cs = [] := by
  obtain ⟨l, blanks, hb, hj, ⟨ds, rfl, hds⟩, -⟩ := exists_line h
  rw [lex_append_blanks hp.left hds] at hl
  rw [normalize, hj, trimEnd_append _ hb, normalizeLine_eq, hl]
  rfl

/-- A text whose normal form is one line is one line. -/
theorem oneLine_of_normal (h : '\n' ∉ normalize cs) : oneLine cs = true := by
  by_cases hn : '\n' ∈ cs
  · obtain ⟨as, bs, rfl, has⟩ := List.eq_append_cons_of_mem hn
    rw [oneLine_append has]
    by_contra hb
    obtain ⟨c, hc, hcb⟩ := exists_visible (by simpa using hb)
    obtain ⟨l, hl, hcl⟩ := mem_linesFrom (g := []) (.inr hc) hcb
    obtain ⟨d, hd, hdb⟩ := visible_normalizeLine (List.all_eq_false.2 ⟨c, hcl, by simp [hcb]⟩)
    have hmem : d ∈ ((lines bs).map normalizeLine).flatMap ('\n' :: ·) :=
      List.mem_flatMap.2 ⟨_, List.mem_map_of_mem hl, List.mem_cons_of_mem _ hd⟩
    apply h
    rw [normalize, lines, linesFrom_append [] has, List.map_cons, joinLines_cons]
    generalize (lines bs).map normalizeLine = ms at hmem
    cases ms with
    | nil => cases hmem
    | cons m ms => exact mem_trimEnd ⟨d, hmem, hdb⟩
  · exact oneLine_single hn

theorem plain_of_normal (h : Plain (normalize cs)) : Plain cs := by
  intro c hc
  rw [Bool.eq_false_iff]
  intro ho
  have hb := opensText_not_blank ho
  obtain ⟨l, hl, hcl⟩ := mem_linesFrom (g := []) (.inr hc) hb
  have hmem : c ∈ joinLines ((lines cs).map normalizeLine) :=
    mem_joinLines (List.mem_map_of_mem hl) (mem_normalizeLine hcl hb ho)
  obtain ⟨as, bs, hs⟩ := List.append_of_mem hmem
  have := h c (by rw [normalize, hs]; exact mem_trimEnd ⟨c, by simp, hb⟩)
  simp [ho] at this

end Normal

end Code

end Kinetics

import Kinetics.Proofs.Code.Finished
import Kinetics.Proofs.Equation.Formula
import Kinetics.Proofs.Formula.Symbols

/-!
# Kinetics.Proofs.Formula.Occurrence

Where the symbols of a formula are in its code. Each stands there with the tokens of its name, in
its place among the tokens of the fragments before and behind it, as long as what stands before is
finished; else it is within a literal or a comment. A formula whose texts are each finished and
without line feeds has single-line code in which all names come from its symbols or its texts
(`freeSymbols_occur`).
-/

namespace Kinetics

namespace Formula

open Code Text
open Program (IsIdentifier)
open Python

variable {n : Node} {e : Expression} {f : Fragment} {fs gs before after : List Fragment}
  {as cs ds w : List Char} {t : Token}

section Line

/-- The line of fragments. -/
def lineOf (fs : List Fragment) : List Char :=
  List.intercalate [' '] (fs.map characters)

theorem lineOf_single (f : Fragment) : lineOf [f] = characters f := by
  simp [lineOf, List.intercalate]

theorem lineOf_append (hf : fs ≠ []) (hg : gs ≠ []) :
    lineOf (fs ++ gs) = lineOf fs ++ ' ' :: lineOf gs := by
  induction fs with
  | nil => exact absurd rfl hf
  | cons f fs ih =>
    cases fs with
    | nil =>
      obtain ⟨g, gs, rfl⟩ := List.exists_cons_of_ne_nil hg
      rw [lineOf_single]
      exact intercalate_cons_cons _ _ _
    | cons f' fs =>
      have hrest := ih (by simp)
      have hcons (hs : List Fragment) :
          lineOf (f :: f' :: hs) = characters f ++ ' ' :: lineOf (f' :: hs) :=
        intercalate_cons_cons _ _ _
      rw [List.cons_append, List.cons_append, hcons, hcons, ← List.cons_append, hrest]
      simp

/-- A fragment behind others stands behind a blank. -/
theorem lineOf_behind (hb : before ≠ []) (f : Fragment) (after : List Fragment) :
    ∃ rest, lineOf (before ++ f :: after) = lineOf before ++ ' ' :: (characters f ++ rest) := by
  have hcons : ∃ rest, lineOf ([f] ++ after) = characters f ++ rest := by
    by_cases hafter : after = []
    · exact ⟨[], by rw [hafter, List.append_nil, lineOf_single, List.append_nil]⟩
    · exact ⟨_, by rw [lineOf_append (by simp) hafter, lineOf_single]⟩
  obtain ⟨rest, hrest⟩ := hcons
  exact ⟨rest, by rw [lineOf_append hb (by simp), ← hrest, List.singleton_append]⟩

/-- Behind finished fragments the line goes on with the tokens of its rest. -/
theorem lex_lineOf_append (h : Finished (lineOf fs)) (gs : List Fragment) :
    lex (lineOf (fs ++ gs)) = lex (lineOf fs) ++ lex (lineOf gs) := by
  have hnil : lex (lineOf []) = [] := lex_nil
  by_cases hf : fs = []
  · rw [hf, List.nil_append, hnil, List.nil_append]
  · by_cases hg : gs = []
    · rw [hg, hnil, List.append_nil, List.append_nil]
    · have hblank : lex (' ' :: lineOf gs) = lex (lineOf gs) := by
        rw [lex, if_pos (by decide)]
      rw [lineOf_append hf hg, h.lex_append (by decide), hblank]

theorem lex_lineOf (h : ∀ f ∈ fs, Finished (characters f)) : lex (lineOf fs) = tokens fs := by
  induction fs with
  | nil => exact lex_nil
  | cons f fs ih =>
    obtain ⟨hf, hfs⟩ := List.forall_mem_cons.1 h
    rw [← lineOf_single] at hf
    rw [← List.singleton_append, lex_lineOf_append hf, lineOf_single, ih hfs]
    rfl

end Line

section Code

/-- The tokens of single-line code besides brackets are those of the line of its fragments. -/
theorem unbracketed_code (h : oneLine (line e) = true) (hne : unbracketed (line e) ≠ []) :
    unbracketed e.code.toList = (unbracketed (line e)).map Token.trim := by
  have hnormal := unbracketed_normalize h
  have hsome : ¬(normalize (line e)).isEmpty = true := by
    intro hnil
    rw [List.isEmpty_iff.1 hnil, unbracketed, lex_nil] at hnormal
    exact hne (List.map_eq_nil_iff.1 hnormal.symm)
  rw [toList_code, if_neg hsome, hnormal]

theorem single_code_iff : '\n' ∉ e.code.toList ↔ oneLine (line e) = true := by
  rw [← single_normalize_iff, toList_code]
  split
  · rename_i hnil
    rw [List.isEmpty_iff.1 hnil]
    simp
  · exact Iff.rfl

theorem trim_eq_name : t.trim = .name w ↔ t = .name w := by
  cases t <;> simp [Token.trim]

/-- Single-line code has the names of the line of its fragments. -/
theorem mem_lex_code (h : oneLine (line e) = true) :
    .name w ∈ lex e.code.toList ↔ .name w ∈ lex (line e) := by
  have hname (cs : List Char) : .name w ∈ lex cs ↔ .name w ∈ unbracketed cs :=
    (mem_unbracketed.trans (and_iff_left rfl)).symm
  have htrim : .name w ∈ unbracketed (normalize (line e)) ↔ .name w ∈ unbracketed (line e) := by
    rw [unbracketed_normalize h, List.mem_map]
    simp [trim_eq_name]
  rw [toList_code, hname (line e), ← htrim, ← hname]
  split
  · rename_i hnil
    rw [List.isEmpty_iff.1 hnil, lex_nought, lex_nil]
    simp
  · exact Iff.rfl

end Code

section Names

/-- A name starts with a low line or with a character that starts an identifier. -/
theorem startsName_of_mem_lex (h : .name w ∈ lex cs) : ∃ c r, w = c :: r ∧ startsName c = true := by
  obtain ⟨c, r, htext, -, hc⟩ := (ofLine_lex cs).lexed _ h
  refine ⟨c, r, htext, ?_⟩
  by_contra hs
  rw [takeToken, if_neg hs] at hc
  repeat' split at hc
  all_goals cases hc

theorem isIdentifier_of_mem_lex {s : String} (h : .name s.toList ∈ lex cs)
    (hs : Node.Continues s) : IsIdentifier s := by
  obtain ⟨c, r, hc, hstart⟩ := startsName_of_mem_lex h
  refine ⟨⟨c, by simp [hc], ?_⟩, hs⟩
  simpa [startsName] using hstart

theorem plain_of_continues {s : String} (hs : Node.Continues s) :
    ∀ c ∈ s.toList, opensText c = false ∧ c ≠ '\\' := by
  have hnone : ['\'', '"', '#', '\\'].all (fun c => !isIdentifierContinue c) = true := by
    decide +kernel
  have hne (c d : Char) (hc : c ∈ s.toList) (hd : isIdentifierContinue d = false) : c ≠ d := by
    rintro rfl
    simp [hs c hc] at hd
  intro c hc
  simp only [List.all_cons, Bool.and_eq_true, Bool.not_eq_true'] at hnone
  obtain ⟨hq, hqq, hcomment, hb, -⟩ := hnone
  refine ⟨?_, hne c _ hc hb⟩
  simp only [opensText, Bool.or_eq_false_iff, beq_eq_false_iff_ne]
  exact ⟨⟨hne c _ hc hq, hne c _ hc hqq⟩, hne c _ hc hcomment⟩

theorem unbracketed_append (h : lex cs = lex ds ++ lex as) :
    unbracketed cs = unbracketed ds ++ unbracketed as := by
  rw [unbracketed, h, List.filter_append]
  rfl

theorem unbracketed_ne_nil {s : String} (hs : Node.Continues s) (hne : s.toList ≠ []) :
    unbracketed s.toList ≠ [] := by
  obtain ⟨c, r, hc⟩ := List.exists_cons_of_ne_nil hne
  have hcont : isIdentifierContinue c = true := hs c (by simp [hc])
  have hmem : c ∈ s.toList := by simp [hc]
  obtain ⟨t, ht, htc⟩ := mem_lex hmem (not_blank_of_continue hcont)
  have hbracket : isBracket t = false := by
    have hno : ∀ b : Bracket, isIdentifierContinue b.opener = false ∧
        isIdentifierContinue b.closer = false := by
      intro b
      cases b <;> decide +kernel
    cases t with
    | opening b =>
      obtain rfl := List.mem_singleton.1 htc
      simp [(hno b).1] at hcont
    | closing b =>
      obtain rfl := List.mem_singleton.1 htc
      simp [(hno b).2] at hcont
    | _ => rfl
  exact List.ne_nil_of_mem (mem_unbracketed.2 ⟨ht, hbracket⟩)

end Names

section Compiled

variable {s suffix : String} (hn : n.PlainIdentifiers) (h : n.compile "" = .ok e)

include hn h

/-- The symbols of a compiled formula have no suffix, and names of characters of identifiers. -/
theorem symbol_of_compile (hs : .symbol s suffix ∈ e.fragments) :
    suffix = "" ∧ Node.Continues s ∧ s.toList ≠ [] := by
  refine ⟨Node.compile_fromTexts h _ hs, ?_⟩
  have hnames : s ∈ Node.namesOf e.fragments := List.mem_filterMap.2 ⟨_, hs, rfl⟩
  rw [Node.compile_symbols h] at hnames
  obtain ⟨m, hm, rfl⟩ := List.mem_map.1 hnames
  exact hn.continues m hm

theorem characters_of_compile (hs : .symbol s suffix ∈ e.fragments) :
    characters (.symbol s suffix) = s.toList := by
  obtain ⟨rfl, -⟩ := symbol_of_compile hn h hs
  simp [characters, Fragment.render]

theorem mem_freeSymbols_iff : s ∈ e.freeSymbols.toList ↔ .symbol s "" ∈ e.fragments := by
  rw [Expression.freeSymbols, OrderedSet.mem_toList_ofList, List.mem_filterMap]
  constructor
  · rintro ⟨f, hf, hs⟩
    cases f with
    | symbol name suffix =>
      cases hs
      obtain ⟨rfl, -⟩ := symbol_of_compile hn h hf
      exact hf
    | text code => cases hs
  · exact fun hs => ⟨_, hs, rfl⟩

/-- Behind finished fragments a symbol has its own tokens. -/
theorem occurs_of_finished (hs : e.fragments = before ++ .symbol s "" :: after)
    (ho : oneLine (line e) = true) (hb : Finished (lineOf before)) :
    unbracketed e.code.toList = unbracketed (lineOf before) ++
      (unbracketed s.toList ++ (unbracketed (lineOf after)).map Token.trim) := by
  have hmem : .symbol s "" ∈ e.fragments := by simp [hs]
  obtain ⟨-, hcont, hne⟩ := symbol_of_compile hn h hmem
  have hname : Finished s.toList := Plain.finished fun c hc => (plain_of_continues hcont c hc).1
  have hsingle : lineOf [.symbol s ""] = s.toList := by
    rw [lineOf_single, characters_of_compile hn h hmem]
  have hrest : lex (lineOf (.symbol s "" :: after)) = lex s.toList ++ lex (lineOf after) := by
    rw [← List.singleton_append, lex_lineOf_append (by rwa [hsingle]), hsingle]
  have hline : lex (line e) = lex (lineOf before) ++ lex (lineOf (.symbol s "" :: after)) := by
    rw [← lex_lineOf_append hb, ← hs]
    rfl
  have hall := unbracketed_append hline
  rw [unbracketed_append hrest] at hall
  have hsome : unbracketed (line e) ≠ [] := by
    rw [hall]
    simp [unbracketed_ne_nil hcont hne]
  rw [unbracketed_code ho hsome, hall, List.map_append, List.map_append, hb.trim_unbracketed,
    hname.trim_unbracketed]

/-- Behind others it is within the literal or comment that is open there. -/
theorem swallowed_of_not_finished (hs : e.fragments = before ++ .symbol s "" :: after)
    (ho : oneLine (line e) = true) (hb : ¬Finished (lineOf before)) :
    ∃ (kept : List Token) (last t : Token) (us : List Token),
      unbracketed (lineOf before) = kept ++ [last] ∧ unbracketed e.code.toList = kept ++ t :: us ∧
        isText t = true ∧ last.text ++ ' ' :: s.toList <+: t.text := by
  have hmem : .symbol s "" ∈ e.fragments := by simp [hs]
  obtain ⟨-, hcont, hne⟩ := symbol_of_compile hn h hmem
  have hbefore : before ≠ [] := by
    rintro rfl
    exact hb .nil
  obtain ⟨rest, hrest⟩ := lineOf_behind hbefore (.symbol s "") after
  rw [characters_of_compile hn h hmem, ← hs] at hrest
  have hline : line e = lineOf before ++ ' ' :: (s.toList ++ rest) := hrest
  obtain ⟨kept, last, t, us, hkept, hall, htext, hpre⟩ := unbracketed_swallowed hb hne
    (plain_of_continues hcont) (fun c hc => not_blank_of_continue (hcont c hc)) rest
  rw [← hline] at hall
  have hsome : unbracketed (line e) ≠ [] := by
    intro hnil
    simp [hnil] at hall
  exact ⟨kept, last, t, us, hkept, (unbracketed_code ho hsome).trans hall, htext, hpre⟩

variable (hw : ∀ w ∈ n.ownTexts, Finished w.toList ∧ '\n' ∉ w.toList)

include hw

/-- Where the texts of a formula are finished and have no line feeds, so are all fragments. -/
theorem finished_characters :
    ∀ f ∈ e.fragments, Finished (characters f) ∧ '\n' ∉ characters f := by
  intro f hf
  cases f with
  | symbol s suffix =>
    obtain ⟨-, hcont, -⟩ := symbol_of_compile hn h hf
    rw [characters_of_compile hn h hf]
    refine ⟨Plain.finished fun c hc => (plain_of_continues hcont c hc).1, fun hfeed => ?_⟩
    exact absurd (not_blank_of_continue (hcont _ hfeed)) (by decide)
  | text code =>
    rcases Node.compile_fromTexts h _ hf with hc | hc
    · exact (plain_scaffold hc).imp_left Plain.finished
    · exact hw code hc

theorem single_of_finished : oneLine (line e) = true := by
  refine oneLine_single fun hfeed => ?_
  rcases mem_intercalate hfeed with hfeed | ⟨cs, hcs, hfeed⟩
  · cases hfeed
  · obtain ⟨f, hf, rfl⟩ := List.mem_map.1 hcs
    exact (finished_characters hn h hw f hf).2 hfeed

/-- Then the names in the code are those of the fragments. -/
theorem names_of_finished :
    .name w ∈ lex e.code.toList ↔ ∃ f ∈ e.fragments, .name w ∈ lex (characters f) := by
  have hlex : lex (line e) = tokens e.fragments :=
    lex_lineOf fun f hf => (finished_characters hn h hw f hf).1
  rw [mem_lex_code (single_of_finished hn h hw), hlex, tokens, List.mem_flatMap]

end Compiled

/-- The free symbols of a compiled formula, and where they are in its code. -/
theorem freeSymbols_occur (hn : n.PlainIdentifiers) (h : n.compile "" = .ok e) :
    e.freeSymbols = OrderedSet.ofList (n.explicit.symbols.map Node.symbolName) ∧
    (∀ s ∈ e.freeSymbols.toList, (IsIdentifier s → lex s.toList = [.name s.toList]) ∧
      (¬IsIdentifier s → .name s.toList ∉ lex e.code.toList)) ∧
    ('\n' ∉ e.code.toList ↔ oneLine (line e) = true) ∧
    ('\n' ∉ e.code.toList → ∀ before s after, e.fragments = before ++ .symbol s "" :: after →
      (Finished (lineOf before) → unbracketed e.code.toList = unbracketed (lineOf before) ++
        (unbracketed s.toList ++ (unbracketed (lineOf after)).map Token.trim)) ∧
      (¬Finished (lineOf before) → ∃ kept last t us,
        unbracketed (lineOf before) = kept ++ [last] ∧ unbracketed e.code.toList = kept ++ t :: us ∧
          isText t = true ∧ last.text ++ ' ' :: s.toList <+: t.text)) ∧
    ((∀ w ∈ n.ownTexts, Finished w.toList ∧ '\n' ∉ w.toList) → '\n' ∉ e.code.toList ∧
      ∀ w, .name w ∈ lex e.code.toList ↔
        (∃ s ∈ e.freeSymbols.toList, .name w ∈ lex s.toList) ∨
          ∃ code, .text code ∈ e.fragments ∧ .name w ∈ lex code.toList) := by
  refine ⟨?_, fun s hs => ⟨lex_name_alone, fun hi hmem => hi ?_⟩, single_code_iff, ?_, ?_⟩
  · rw [← Node.compile_symbols h]
    rfl
  · exact isIdentifier_of_mem_lex hmem
      (symbol_of_compile hn h ((mem_freeSymbols_iff hn h).1 hs)).2.1
  · intro hline before s after hs
    have ho := single_code_iff.1 hline
    exact ⟨occurs_of_finished hn h hs ho, swallowed_of_not_finished hn h hs ho⟩
  · intro hw
    refine ⟨single_code_iff.2 (single_of_finished hn h hw), fun w => ?_⟩
    rw [names_of_finished hn h hw]
    constructor
    · rintro ⟨f, hf, hmem⟩
      cases f with
      | symbol s suffix =>
        obtain ⟨rfl, -⟩ := symbol_of_compile hn h hf
        rw [characters_of_compile hn h hf] at hmem
        exact .inl ⟨s, (mem_freeSymbols_iff hn h).2 hf, hmem⟩
      | text code => exact .inr ⟨code, hf, hmem⟩
    · rintro (⟨s, hs, hmem⟩ | ⟨code, hc, hmem⟩)
      · have hf := (mem_freeSymbols_iff hn h).1 hs
        exact ⟨_, hf, by rwa [characters_of_compile hn h hf]⟩
      · exact ⟨_, hc, hmem⟩

/-- A number sign between two symbols. -/
def remarked : Node :=
  .row [.identifier "k", .text "#", .identifier "k1"]

/-- The first one is a name of the code, the second is within the comment. -/
theorem freeSymbols_occur_remarked : remarked.PlainIdentifiers ∧ ∃ e, remarked.compile "" = .ok e ∧
    e.freeSymbols.toList = ["k", "k1"] ∧ '\n' ∉ e.code.toList ∧
    (∃ us, unbracketed e.code.toList = .name "k".toList :: us) ∧
    ∃ t ∈ lex e.code.toList, isText t = true ∧ "k1".toList <:+: t.text := by
  have hstart : isIdentifierStart 'k' = true := by decide +kernel
  have hk : IsIdentifier "k" ∧ IsIdentifier "k1" :=
    ⟨⟨⟨'k', rfl, .inr hstart⟩, Node.continues_of_all (by decide +kernel)⟩,
      ⟨⟨'k', rfl, .inr hstart⟩, Node.continues_of_all (by decide +kernel)⟩⟩
  have hn : remarked.PlainIdentifiers := by
    intro s hs _
    simp only [remarked, Node.identifiers, Node.identifiersAmong, List.mem_cons, List.nil_append,
      List.cons_append, List.not_mem_nil, or_false] at hs
    rcases hs with rfl | rfl
    · exact hk.1
    · exact hk.2
  have h : remarked.compile "" = .ok ⟨[.symbol "k" "", .text "*", .text "#", .text "*",
      .symbol "k1" ""], []⟩ := by
    decide +kernel
  obtain ⟨hfree, -, hsingle, hoccurs, -⟩ := freeSymbols_occur hn h
  have hline := hsingle.2 (by decide +kernel)
  obtain ⟨hfirst, -⟩ := hoccurs hline [] "k" _ rfl
  obtain ⟨-, hsecond⟩ := hoccurs hline [.symbol "k" "", .text "*", .text "#", .text "*"] "k1" [] rfl
  obtain ⟨_, last, t, _, -, hall, htext, post, hpost⟩ := hsecond (by decide +kernel)
  refine ⟨hn, _, h, ?_, hline, ?_, t, (mem_unbracketed.1 ?_).1, htext, ?_⟩
  · rw [hfree]
    decide +kernel
  · have hnil : unbracketed (lineOf []) = [] := congrArg (List.filter _) lex_nil
    have hname : unbracketed "k".toList = [.name "k".toList] := by
      rw [unbracketed, lex_name_alone hk.1]
      rfl
    rw [hfirst .nil, hnil, hname]
    exact ⟨_, rfl⟩
  · rw [hall]
    exact List.mem_append_right _ List.mem_cons_self
  · exact ⟨last.text ++ [' '], post, by simp [← hpost]⟩

end Formula

end Kinetics

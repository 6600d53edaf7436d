import Kinetics.Proofs.Decimal.Numeral
import Kinetics.Proofs.Hygiene.Program
import Kinetics.Proofs.Program.Reads
import Kinetics.Proofs.Python.Literal

/-!
# Kinetics.Proofs.Lookup.Line

What the text of a program looks up in the parameter table. A line that assigns the entry of an
index calls the function for it and nothing else behind its first equals sign, and tells which index
it is. A text put together from lines is split into these again, unless one of them has a line feed
in it; so the look-ups of a text can be told from its statements, one by one (`lookedUp_source`).
-/

namespace Kinetics

namespace Program

open Python Text

variable {k : ParameterIndex} {line cs ds : List Char} {code value x : String}

/-- The code that looks an entry up. -/
def lookUpCode (k : ParameterIndex) : String :=
  "_value(parameter_table, " ++ indexLiteral k ++ ")"

/-- What a line assigns: all that is behind its first equals sign. -/
def rightSide (line : List Char) : List Char :=
  (line.dropWhile (· != '=')).tail

/-- The line assigns the entry of an index. -/
def LooksUp (line : List Char) (k : ParameterIndex) : Prop :=
  rightSide line = ' ' :: (lookUpCode k).toList

/-- Some line of the text assigns the entry of an index. -/
def LookedUp (text : String) (k : ParameterIndex) : Prop :=
  ∃ line ∈ text.toList.splitOn '\n', LooksUp line k

instance : Decidable (LooksUp line k) :=
  inferInstanceAs (Decidable (rightSide line = ' ' :: (lookUpCode k).toList))

instance {text : String} : Decidable (LookedUp text k) :=
  List.decidableBEx _ _

section Code

theorem toList_lookUpCode (k : ParameterIndex) : (lookUpCode k).toList =
    "_value(parameter_table, ".toList ++ ((indexLiteral k).toList ++ [')']) := by
  have hclose : ")".toList = [')'] := by decide
  unfold lookUpCode
  rw [String.toList_append, String.toList_append, List.append_assoc, hclose]

theorem lookUpCode_injective : Function.Injective lookUpCode := by
  intro i j h
  have hlist := congrArg String.toList h
  rw [toList_lookUpCode, toList_lookUpCode, List.append_right_inj, List.append_left_inj] at hlist
  exact indexLiteral_injective (String.toList_inj.1 hlist)

theorem lookUpCode_unbroken (k : ParameterIndex) : '\n' ∉ (lookUpCode k).toList := by
  have hindex : '\n' ∉ (indexLiteral k).toList := fun hn =>
    ((mem_indexLiteral_of_isRefused (c := '\n') rfl k).1 hn).1 rfl
  simp [toList_lookUpCode, hindex]

theorem rightSide_append (h : '=' ∉ cs) : rightSide (cs ++ '=' :: ds) = ds := by
  have hpass : ∀ c ∈ cs, (c != '=') = true := fun c hc => by
    simpa using ne_of_mem_of_not_mem hc h
  rw [rightSide, List.dropWhile_append_of_pos hpass]
  rfl

theorem rightSide_suffix (line : List Char) : rightSide line <:+ line :=
  (List.tail_suffix _).trans (List.dropWhile_suffix _)

/-- What is in front of a line changes nothing if it has no equals sign. -/
theorem rightSide_indented (h : '=' ∉ cs) (line : List Char) :
    rightSide (cs ++ line) = rightSide line := by
  have hpass : ∀ c ∈ cs, (c != '=') = true := fun c hc => by
    simpa using ne_of_mem_of_not_mem hc h
  rw [rightSide, List.dropWhile_append_of_pos hpass, rightSide]

/-- A line that looks something up ends with the parentheses of the index and of the call. -/
theorem LooksUp.exists_end (h : LooksUp line k) : ∃ cs, line = cs ++ [')', ')'] := by
  obtain ⟨cs, hcs⟩ := rightSide_suffix line
  obtain ⟨ds, hds⟩ : ∃ ds, (indexLiteral k).toList = ds ++ [')'] :=
    ⟨_, by rw [indexLiteral, String.toList_append]; rfl⟩
  refine ⟨cs ++ ' ' :: ("_value(parameter_table, ".toList ++ ds), ?_⟩
  rw [← hcs, h, toList_lookUpCode, hds]
  simp

end Code

section Split

theorem infix_intercalate (sep : List Char) {ls : List (List Char)} (h : line ∈ ls) :
    line <:+: sep.intercalate ls := by
  induction ls with
  | nil => cases h
  | cons l ls ih =>
    cases ls with
    | nil => simp [List.mem_singleton.1 h]
    | cons m ls =>
      rw [List.intercalate_cons_cons, List.append_assoc]
      rcases List.mem_cons.1 h with rfl | h
      · exact (List.prefix_append _ _).isInfix
      · exact (ih h).trans ((List.suffix_append _ _).trans (List.suffix_append _ _)).isInfix

/-- What a text is split into stands in it. -/
theorem infix_of_mem_splitOn (h : line ∈ cs.splitOn '\n') : line <:+: cs := by
  have hinfix := infix_intercalate ['\n'] h
  rwa [List.intercalate_splitOn] at hinfix

theorem splitOn_append_unbroken (h : '\n' ∉ cs) (ds : List Char) :
    (cs ++ ds).splitOn '\n' = (ds.splitOn '\n').modifyHead (cs ++ ·) := by
  induction cs with
  | nil => cases hd : ds.splitOn '\n' <;> simp [hd]
  | cons c cs ih =>
    obtain ⟨hc, hcs⟩ := not_or.1 (mt List.mem_cons.2 h)
    rw [List.cons_append, List.splitOn_cons_eq_if_modifyHead, if_neg (by simpa using Ne.symm hc),
      ih hcs, List.modifyHead_modifyHead]
    rfl

theorem lookedUp_unbroken (h : '\n' ∉ code.toList) : LookedUp code k ↔ LooksUp code.toList k := by
  simp [LookedUp, List.splitOn_eq_singleton h]

/-- A line that assigns a value looks up nothing but what the value spells. -/
theorem LookedUp.of_assign (hl : code.toList = cs ++ '=' :: ' ' :: value.toList)
    (hfeed : '\n' ∉ cs) (hequals : '=' ∉ cs) (h : LookedUp code k) :
    (lookUpCode k).toList <:+: value.toList := by
  obtain ⟨line, hline, hlooks⟩ := h
  have hhead : '\n' ∉ cs ++ ['=', ' '] := by simp [hfeed]
  have hcode : code.toList = (cs ++ ['=', ' ']) ++ value.toList := by simp [hl]
  rw [hcode, splitOn_append_unbroken hhead] at hline
  cases hv : value.toList.splitOn '\n' with
  | nil => exact absurd hv (List.splitOn_ne_nil _ _)
  | cons first rest =>
    rw [hv, List.modifyHead_cons] at hline
    rcases List.mem_cons.1 hline with rfl | hline
    · -- the first line assigns what the value begins with
      have hright : rightSide (cs ++ ['=', ' '] ++ first) = ' ' :: first := by
        rw [List.append_assoc]
        exact rightSide_append hequals
      rw [LooksUp, hright, List.cons_inj_right] at hlooks
      rw [← hlooks]
      exact infix_of_mem_splitOn (hv ▸ List.mem_cons_self)
    · -- any further line is the value's own
      have hsuffix := rightSide_suffix line
      rw [hlooks] at hsuffix
      exact ((List.suffix_cons _ _).trans hsuffix).isInfix.trans
        (infix_of_mem_splitOn (hv ▸ List.mem_cons_of_mem _ hline))

/-- On one line, a value that is assigned is a look-up as a whole or not at all. -/
theorem lookedUp_assign (hl : code.toList = cs ++ '=' :: ' ' :: value.toList)
    (hfeed : '\n' ∉ cs) (hequals : '=' ∉ cs) (hvalue : '\n' ∉ value.toList) :
    LookedUp code k ↔ value = lookUpCode k := by
  have hcode : '\n' ∉ code.toList := by simp [hl, hfeed, hvalue]
  rw [lookedUp_unbroken hcode, LooksUp, hl, rightSide_append hequals, List.cons_inj_right,
    String.toList_inj]

end Split

section Statement

open Statement

variable {place : Place} {level : Nat} {l : String} {st : Statement} {ss body : List Statement}

/-- A name that a line can assign: it has neither an equals sign nor a line feed. -/
def Bare (x : String) : Prop :=
  '\n' ∉ x.toList ∧ '=' ∉ x.toList

instance : Decidable (Bare x) :=
  inferInstanceAs (Decidable (_ ∧ _))

theorem toList_indent (level : Nat) : ∀ c ∈ (indent level).toList, c = ' ' := by
  induction level with
  | zero => simp [indent]
  | succ level ih => simpa [indent] using ih

theorem bare_indent (level : Nat) : Bare (indent level) :=
  ⟨fun h => absurd (toList_indent level _ h) (by decide),
    fun h => absurd (toList_indent level _ h) (by decide)⟩

theorem mem_of_mem_joinWith {c : Char} {sep : String} {parts : List String}
    (h : c ∈ (joinWith sep parts).toList) : c ∈ sep.toList ∨ ∃ s ∈ parts, c ∈ s.toList := by
  induction parts with
  | nil => simp [joinWith] at h
  | cons s parts ih =>
    cases parts with
    | nil => exact .inr ⟨s, List.mem_singleton_self s, by simpa [joinWith] using h⟩
    | cons t parts =>
      rw [joinWith, String.intercalate_cons_cons, String.toList_append, String.toList_append,
        List.append_assoc, List.mem_append, List.mem_append] at h
      rcases h with h | h | h
      · exact .inr ⟨s, List.mem_cons_self, h⟩
      · exact .inl h
      · rcases ih h with h | ⟨u, hu, hc⟩
        · exact .inl h
        · exact .inr ⟨u, List.mem_cons_of_mem _ hu, hc⟩

theorem isDigit_of_mem_nat {c : Char} {n : Nat} (h : c ∈ (toString n).toList) :
    c.isDigit = true := by
  have hlist : (toString n).toList = natDigits n := by simp [toString, Nat.repr, natDigits]
  exact Decimal.isDigit_natDigits n c (hlist ▸ h)

/-- Behind a name stand positions at most. -/
theorem bare_place (h : Bare place.name) : Bare place.code := by
  have hposition {c : Char} {i : Option Nat} (hc : c ∈ (positionText i).toList) :
      c = ':' ∨ c.isDigit = true := by
    cases i with
    | none => exact .inl (by simpa [positionText] using hc)
    | some n => exact .inr (isDigit_of_mem_nat hc)
  have hjoined {c : Char} (hc : c ∈ (joinWith ", " (place.positions.map positionText)).toList) :
      c = ',' ∨ c = ' ' ∨ c = ':' ∨ c.isDigit = true := by
    rcases mem_of_mem_joinWith hc with hc | ⟨s, hs, hc⟩
    · have hcomma : c = ',' ∨ c = ' ' := by simpa using hc
      exact hcomma.imp_right .inl
    · obtain ⟨i, -, rfl⟩ := List.mem_map.1 hs
      exact .inr (.inr (hposition hc))
  have hnone {c : Char} (hc : c ∉ place.name.toList) (hbracket : c ≠ '[' ∧ c ≠ ']')
      (hother : ¬(c = ',' ∨ c = ' ' ∨ c = ':' ∨ c.isDigit = true)) : c ∉ place.code.toList := by
    unfold Place.code
    split
    · exact hc
    · simp [hc, hbracket, mt hjoined hother]
  exact ⟨hnone h.1 (by decide) (by decide), hnone h.2 (by decide) (by decide)⟩

theorem toList_assignLine (h : Bare place.name) (level : Nat) (value : String) :
    ∃ cs, (indent level ++ place.code ++ " = " ++ value).toList =
      cs ++ '=' :: ' ' :: value.toList ∧ '\n' ∉ cs ∧ '=' ∉ cs := by
  obtain ⟨hfeed, hequals⟩ := bare_indent level
  obtain ⟨hfeed', hequals'⟩ := bare_place h
  refine ⟨(indent level).toList ++ (place.code.toList ++ [' ']), ?_, ?_, ?_⟩
  · simp
  · simp [hfeed, hfeed']
  · simp [hequals, hequals']

/-- The line that assigns a value to a place looks up nothing but what the value spells. -/
theorem infix_of_assignLine (h : Bare place.name)
    (hlooks : LookedUp (indent level ++ place.code ++ " = " ++ value) k) :
    (lookUpCode k).toList <:+: value.toList := by
  obtain ⟨cs, hl, hfeed, hequals⟩ := toList_assignLine h level value
  exact hlooks.of_assign hl hfeed hequals

theorem lookedUp_assignLine (h : Bare place.name) (hvalue : '\n' ∉ value.toList) :
    LookedUp (indent level ++ place.code ++ " = " ++ value) k ↔ value = lookUpCode k := by
  obtain ⟨cs, hl, hfeed, hequals⟩ := toList_assignLine h level value
  exact lookedUp_assign hl hfeed hequals hvalue

theorem mem_linesOf : l ∈ linesOf level ss ↔ ∃ st ∈ ss, l ∈ st.lines level := by
  induction ss with
  | nil => simp [linesOf]
  | cons st ss ih => simp [linesOf, ih]

/-- What a text looks up is what one of its lines does. -/
theorem lookedUp_source : LookedUp (source ss) k ↔ ∃ l ∈ linesOf 0 ss, LookedUp l k := by
  have hjoin (ls : List String) : ((ls.map fun l => l ++ "\n").flatMap String.toList).splitOn '\n' =
      ls.flatMap (fun l => l.toList.splitOn '\n') ++ [[]] := by
    induction ls with
    | nil => rfl
    | cons l ls ih =>
      have hline : (l ++ "\n").toList = l.toList ++ ['\n'] := by simp
      rw [List.map_cons, List.flatMap_cons, hline, List.append_assoc, List.singleton_append,
        List.splitOn_append_cons_self, ih, List.flatMap_cons, List.append_assoc]
  have hnil : ¬LooksUp [] k := nofun
  simp only [LookedUp, source, String.toList_join, hjoin, List.mem_append, List.mem_flatMap,
    List.mem_singleton]
  constructor
  · rintro ⟨line, ⟨l, hl, hline⟩ | rfl, hlooks⟩
    · exact ⟨l, hl, line, hline, hlooks⟩
    · exact absurd hlooks hnil
  · rintro ⟨l, hl, line, hline, hlooks⟩
    exact ⟨line, .inl ⟨l, hl, hline⟩, hlooks⟩

/-- The line that reads an entry assigns the code that looks it up. -/
theorem lines_read (place : Place) (k : ParameterIndex) (level : Nat) :
    (Statement.read place k).lines level =
      [indent level ++ place.code ++ " = " ++ lookUpCode k] := by
  have hcall : " = " ++ "_value(parameter_table, " = " = _value(parameter_table, " := by decide
  have hjoined (start index : String) : start ++ " = _value(parameter_table, " ++ index ++ ")" =
      start ++ " = " ++ ("_value(parameter_table, " ++ index ++ ")") := by
    simp only [← hcall, String.append_assoc]
  exact List.singleton_inj.2 (hjoined _ _)

mutual

/-- What a statement reads is looked up by a line of it. -/
theorem exists_line_of_read : ∀ st : Statement, (∀ x ∈ st.targets, Bare x) → k ∈ st.keysRead →
    ∀ level, ∃ l ∈ st.lines level, LookedUp l k
  | .read place key, hbare, hk, level => by
    obtain rfl := List.mem_singleton.1 hk
    have hplace := hbare place.name (List.mem_singleton_self _)
    rw [lines_read]
    exact ⟨_, List.mem_singleton_self _,
      (lookedUp_assignLine hplace (lookUpCode_unbroken k)).2 rfl⟩
  | .block header body, hbare, hk, level => by
    have hbody : ∀ x ∈ targetsBy body, Bare x := fun x hx =>
      hbare x (List.mem_append_right _ hx)
    obtain ⟨l, hl, hlooks⟩ := exists_line_of_reads body hbody hk (level + 1)
    exact ⟨l, List.mem_cons_of_mem _ hl, hlooks⟩
  | .blank, _, hk, _ => nomatch hk
  | .line _, _, hk, _ => nomatch hk
  | .assign _ _, _, hk, _ => nomatch hk
  | .store _ _, _, hk, _ => nomatch hk

theorem exists_line_of_reads : ∀ ss : List Statement, (∀ x ∈ targetsBy ss, Bare x) →
    k ∈ keysReadBy ss → ∀ level, ∃ l ∈ linesOf level ss, LookedUp l k
  | [], _, hk, _ => nomatch hk
  | st :: ss, hbare, hk, level => by
    rcases List.mem_append.1 hk with hk | hk
    · obtain ⟨l, hl, hlooks⟩ := exists_line_of_read st
        (fun x hx => hbare x (List.mem_append_left _ hx)) hk level
      exact ⟨l, List.mem_append_left _ hl, hlooks⟩
    · obtain ⟨l, hl, hlooks⟩ := exists_line_of_reads ss
        (fun x hx => hbare x (List.mem_append_right _ hx)) hk level
      exact ⟨l, List.mem_append_right _ hl, hlooks⟩

end

/-- A statement shows what it reads: its lines look up nothing else, apart from what is spelled
otherwise. It is taken for granted that what the statement assigns are names. -/
def Statement.Shows (spelled : ParameterIndex → Prop) (st : Statement) : Prop :=
  (∀ x ∈ st.targets, Bare x) →
    ∀ level, ∀ l ∈ st.lines level, ∀ k, LookedUp l k → k ∈ st.keysRead ∨ spelled k

section Shows

variable {spelled : ParameterIndex → Prop}

theorem shows_read {key : ParameterIndex} : Shows spelled (.read place key) := by
  intro hbare level l hl k hlooks
  have hplace := hbare place.name (List.mem_singleton_self _)
  rw [lines_read, List.mem_singleton] at hl
  rw [hl] at hlooks
  have hkey := (lookedUp_assignLine hplace (lookUpCode_unbroken key)).1 hlooks
  exact .inl (List.mem_singleton.2 (lookUpCode_injective hkey).symm)

/-- What is assigned may spell look-ups of its own. -/
theorem shows_spelling (h : ∀ k, (lookUpCode k).toList <:+: value.toList → spelled k) :
    Shows spelled (.assign place value) := by
  intro hbare level l hl k hlooks
  have hplace := hbare place.name (List.mem_singleton_self _)
  rw [List.mem_singleton.1 hl] at hlooks
  exact .inr (h k (infix_of_assignLine hplace hlooks))

theorem shows_assign (hvalue : '\n' ∉ value.toList) (h : ∀ k, value ≠ lookUpCode k) :
    Shows spelled (.assign place value) := by
  intro hbare level l hl k hlooks
  have hplace := hbare place.name (List.mem_singleton_self _)
  rw [List.mem_singleton.1 hl] at hlooks
  exact absurd ((lookedUp_assignLine hplace hvalue).1 hlooks) (h k)

theorem looksUp_indented (level : Nat) (code : String) :
    LooksUp (indent level ++ code).toList k ↔ LooksUp code.toList k := by
  rw [LooksUp, String.toList_append, rightSide_indented (bare_indent level).2, LooksUp]

theorem not_lookedUp_indented (hcode : '\n' ∉ code.toList) (h : ¬LooksUp code.toList k)
    (level : Nat) : ¬LookedUp (indent level ++ code) k := by
  have hfeed : '\n' ∉ (indent level ++ code).toList := by simp [hcode, (bare_indent level).1]
  rwa [lookedUp_unbroken hfeed, looksUp_indented]

theorem shows_line (hcode : '\n' ∉ code.toList) (h : ∀ k, ¬LooksUp code.toList k) :
    Shows spelled (.line code) := by
  intro _ level l hl k hlooks
  rw [List.mem_singleton.1 hl] at hlooks
  exact absurd hlooks (not_lookedUp_indented hcode (h k) level)

theorem shows_blank : Shows spelled .blank := by
  intro _ level l hl k hlooks
  rw [List.mem_singleton.1 hl, lookedUp_unbroken List.not_mem_nil] at hlooks
  cases hlooks

theorem reads_of_shows (hbare : ∀ x ∈ targetsBy ss, Bare x) (h : ∀ st ∈ ss, Shows spelled st)
    (hl : l ∈ linesOf level ss) (hlooks : LookedUp l k) : k ∈ keysReadBy ss ∨ spelled k := by
  obtain ⟨st, hst, hl⟩ := mem_linesOf.1 hl
  have htargets : ∀ x ∈ st.targets, Bare x := fun x hx =>
    hbare x (mem_targetsBy.2 ⟨st, hst, hx⟩)
  refine (h st hst htargets level l hl k hlooks).imp_left fun hk => ?_
  exact mem_keysReadBy.2 ⟨st, hst, hk⟩

theorem shows_block (hcode : '\n' ∉ code.toList) (h : ∀ k, ¬LooksUp code.toList k)
    (hbody : ∀ st ∈ body, Shows spelled st) : Shows spelled (.block code body) := by
  intro hbare level l hl k hlooks
  rcases List.mem_cons.1 hl with rfl | hl
  · exact absurd hlooks (not_lookedUp_indented hcode (h k) level)
  · exact reads_of_shows (fun x hx => hbare x (List.mem_append_right _ hx)) hbody hl hlooks

end Shows

end Statement

end Program

end Kinetics

import Kinetics.Markup.Reference
import Kinetics.Program.Literal

/-!
# Kinetics.Proofs.Python.Literal

The literals of a generated program as Python reads them: strings of one line in quotes of either
kind, and tuples of strings and `None`. What a literal may not hold as it is, is a parameter of the
reader. Python refuses line ends, for one of which it takes the carriage return, and the null
character, which may not stand in a program at all.

The literal of a text escapes line feeds and keeps carriage returns and null characters. So it
denotes its text wherever only line feeds are refused, and to Python exactly if the text has neither
of the other two. The same is told of the literal of an index, whose tuple has the five parts of the
index as its items.
-/

namespace Kinetics

namespace Python

/-- What ends a line of a program. -/
def isLineEnd (c : Char) : Bool :=
  c == '\n' || c == '\r'

/-- What no literal may hold as it is: a line end, or the null character. -/
def isRefused (c : Char) : Bool :=
  isLineEnd c || c == '\x00'

def isLineFeed (c : Char) : Bool :=
  c == '\n'

/-- What a backslash and one character stand for, apart from numbers. -/
def escaped? (c : Char) : Option Char :=
  [('\\', '\\'), ('\'', '\''), ('"', '"'), ('a', '\x07'), ('b', '\x08'), ('f', '\x0c'),
    ('n', '\n'), ('r', '\r'), ('t', '\t'), ('v', '\x0b')].lookup c

/-- How many hexadecimal digits follow a letter. -/
def hexWidth? (c : Char) : Option Nat :=
  [('x', 2), ('u', 4), ('U', 8)].lookup c

def isOctal (c : Char) : Bool :=
  '0' ≤ c && c ≤ '7'

def octalNumber (cs : List Char) : Nat :=
  cs.foldl (fun n c => 8 * n + (c.toNat - 48)) 0

/-- The character of a code point. Python's strings can hold a surrogate, which is no character
here. -/
def character? (n : Nat) : Option Char :=
  if n.isValidChar then some (Char.ofNat n) else none

/-- What the text after a backslash begins with, and what follows it. An escape that the language
does not know stands for itself, backslash and all. Characters by name are refused, and so is a
literal that goes on in the next line. -/
def takeEscape : List Char → Option (List Char × List Char)
  | [] => none
  | c :: r =>
    match escaped? c, hexWidth? c with
    | some e, _ => some ([e], r)
    | none, some k =>
      if k ≤ r.length then
        ((Markup.hexNumber? 0 (r.take k)).bind character?).map fun e => ([e], r.drop k)
      else none
    | none, none =>
      if isOctal c then
        let more := (r.take 2).takeWhile isOctal
        some ([Char.ofNat (octalNumber (c :: more))], r.drop more.length)
      else if c = 'N' || isRefused c then none
      else some (['\\', c], r)

theorem length_of_takeEscape {cs e r : List Char} (h : takeEscape cs = some (e, r)) :
    r.length < cs.length := by
  unfold takeEscape at h
  split at h
  · cases h
  split at h
  · cases h
    simp
  · split at h
    · obtain ⟨_, -, h⟩ := Option.map_eq_some_iff.1 h
      cases h
      simp only [List.length_cons, List.length_drop]
      omega
    · cases h
  · split at h
    · cases h
      simp only [List.length_cons, List.length_drop]
      omega
    split at h
    · cases h
    · cases h
      simp

section

variable (refuses : Char → Bool)

/-- The text that a literal denotes, up to the quote that closes it, and what follows that. -/
def takeString (quote : Char) : List Char → Option (List Char × List Char)
  | [] => none
  | c :: r =>
    if c = quote then some ([], r)
    else if c = '\\' then
      match h : takeEscape r with
      | some (e, t) =>
        have := length_of_takeEscape h
        (takeString quote t).map fun p => (e ++ p.1, p.2)
      | none => none
    else if refuses c then none
    else (takeString quote r).map fun p => (c :: p.1, p.2)
termination_by cs => cs.length

theorem length_of_takeString {quote : Char} {cs s r : List Char}
    (h : takeString refuses quote cs = some (s, r)) : r.length < cs.length := by
  fun_induction takeString refuses quote cs generalizing s r with
  | case1 => cases h
  | case2 => cases h; simp
  | case3 _ _ e t ht _ ih =>
    obtain ⟨p, hp, h⟩ := Option.map_eq_some_iff.1 h
    cases h
    have := ih hp
    simp
    omega
  | case4 => cases h
  | case5 => cases h
  | case6 _ _ _ _ _ ih =>
    obtain ⟨p, hp, h⟩ := Option.map_eq_some_iff.1 h
    cases h
    have := ih hp
    simp
    omega

/-- A literal of a text, or `None`. -/
def takeItem : List Char → Option (Option String × List Char)
  | '\'' :: r => (takeString refuses '\'' r).map fun p => (some (String.ofList p.1), p.2)
  | '"' :: r => (takeString refuses '"' r).map fun p => (some (String.ofList p.1), p.2)
  | 'N' :: 'o' :: 'n' :: 'e' :: r => some (none, r)
  | _ => none

theorem length_of_takeItem {cs r : List Char} {x : Option String}
    (h : takeItem refuses cs = some (x, r)) : r.length < cs.length := by
  unfold takeItem at h
  split at h
  · obtain ⟨p, hp, h⟩ := Option.map_eq_some_iff.1 h
    cases h
    have := length_of_takeString refuses hp
    simp
    omega
  · obtain ⟨p, hp, h⟩ := Option.map_eq_some_iff.1 h
    cases h
    have := length_of_takeString refuses hp
    simp
    omega
  · cases h
    simp
    omega
  · cases h

/-- The text without the blanks it starts with. -/
def skipBlanks (cs : List Char) : List Char :=
  cs.dropWhile fun c => c == ' ' || c == '\t' || c == '\x0c'

theorem length_skipBlanks (cs : List Char) : (skipBlanks cs).length ≤ cs.length :=
  (List.dropWhile_sublist _).length_le

/-- Items with commas between them up to the closing parenthesis, and what follows that. One comma
more may stand after the last. -/
def takeItems (cs : List Char) : Option (List (Option String) × List Char) :=
  match h : takeItem refuses (skipBlanks cs) with
  | none => none
  | some (x, r) =>
    have := Nat.lt_of_lt_of_le (length_of_takeItem refuses h) (length_skipBlanks cs)
    match hr : skipBlanks r with
    | ')' :: t => some ([x], t)
    | ',' :: t =>
      have : t.length < r.length :=
        Nat.lt_of_succ_le (Nat.le_trans (Nat.le_of_eq (congrArg List.length hr).symm)
          (length_skipBlanks r))
      match skipBlanks t with
      | ')' :: t' => some ([x], t')
      | _ => (takeItems t).map fun p => (x :: p.1, p.2)
    | _ => none
termination_by cs.length

/-- The text that a literal denotes. -/
def string? (code : String) : Option String :=
  match takeItem refuses code.toList with
  | some (some s, []) => some s
  | _ => none

/-- The items of a tuple of two or more. -/
def tuple? (code : String) : Option (List (Option String)) :=
  match code.toList with
  | '(' :: r =>
    match takeItems refuses r with
    | some (xs, []) => if 2 ≤ xs.length then some xs else none
    | _ => none
  | _ => none

section

variable {refuses} {cs r t : List Char} {x : Option String}

theorem takeItems_none (h : takeItem refuses (skipBlanks cs) = none) : takeItems refuses cs = none := by
  rw [takeItems]
  split
  · rfl
  · next hx => cases h.symm.trans hx

theorem takeItems_last (h : takeItem refuses (skipBlanks cs) = some (x, r))
    (hr : skipBlanks r = ')' :: t) : takeItems refuses cs = some ([x], t) := by
  rw [takeItems]
  split
  · next hx => cases h.symm.trans hx
  · next hx =>
    cases h.symm.trans hx
    split <;> simp_all

theorem takeItems_more (h : takeItem refuses (skipBlanks cs) = some (x, r))
    (hr : skipBlanks r = ',' :: t) (ht : ∀ t', skipBlanks t ≠ ')' :: t') :
    takeItems refuses cs = (takeItems refuses t).map fun p => (x :: p.1, p.2) := by
  rw [takeItems]
  split
  · next hx => cases h.symm.trans hx
  · next hx =>
    cases h.symm.trans hx
    split
    · simp_all
    · next hr' =>
      cases hr.symm.trans hr'
      split
      · next ht' => cases ht _ ht'
      · rfl
    · next hr' => cases hr' _ hr

end

end

example : string? isRefused "'\\x41\\tb\\'\\101\\q'" = some "A\tb'A\\q" := by decide +kernel

end Python

namespace ParameterIndex

/-- The parts of an index in their order, of which the name is never absent. -/
def parts (i : ParameterIndex) : List (Option String) :=
  [some i.name, i.phase, i.stream, i.reaction, i.species]

/-- Some part of the index has the character in it. -/
def holds (i : ParameterIndex) (c : Char) : Bool :=
  i.parts.any fun x => x.any fun s => s.toList.contains c

theorem parts_injective : Function.Injective parts := by
  rintro ⟨_, _, _, _, _⟩ ⟨_, _, _, _, _⟩ h
  simpa [parts] using h

end ParameterIndex

namespace Program

open Python Text

/-- A character that is refused and that no escape writes. -/
def spoils (refuses : Char → Bool) (c : Char) : Bool :=
  refuses c && escape c == [c]

theorem spoils_isRefused : spoils isRefused = fun c => c == '\r' || c == '\x00' := by
  funext c
  grind [spoils, isRefused, isLineEnd, escape]

theorem spoils_isLineFeed : spoils isLineFeed = fun _ => false := by
  funext c
  grind [spoils, isLineFeed, escape]

/-- A part that holds a refused character which no escape writes. -/
def isSpoiled (refuses : Char → Bool) (x : Option String) : Bool :=
  x.any fun s => s.toList.any (spoils refuses)

theorem isSpoiled_isLineFeed : isSpoiled isLineFeed = fun _ => false := by
  funext x
  cases x <;> simp [isSpoiled, spoils_isLineFeed]

theorem any_spoils_isRefused (cs : List Char) :
    cs.any (spoils isRefused) ↔ '\r' ∈ cs ∨ '\x00' ∈ cs := by
  simp [spoils_isRefused, and_or_left, exists_or]

theorem isSpoiled_isRefused (x : Option String) : isSpoiled isRefused x ↔
    (x.any fun s => s.toList.contains '\r') ∨ x.any fun s => s.toList.contains '\x00' := by
  cases x with
  | none => simp [isSpoiled]
  | some s => simpa [isSpoiled] using any_spoils_isRefused s.toList

theorem any_isSpoiled_isRefused (i : ParameterIndex) :
    i.parts.any (isSpoiled isRefused) ↔ i.holds '\r' ∨ i.holds '\x00' := by
  simp only [ParameterIndex.holds, List.any_eq_true, isSpoiled_isRefused, and_or_left, exists_or]

section

variable (refuses : Char → Bool)

theorem takeString_backslash {c d : Char} (rest : List Char) (h : escaped? d = some c) :
    takeString refuses '\'' ('\\' :: d :: rest)
      = (takeString refuses '\'' rest).map fun p => (c :: p.1, p.2) := by
  have hescape : takeEscape (d :: rest) = some ([c], rest) := by simp [takeEscape, h]
  rw [takeString, if_neg (by decide), if_pos rfl]
  split
  · next e t ht =>
    cases hescape.symm.trans ht
    rfl
  · next ht => cases hescape.symm.trans ht

/-- One character of a text is read as itself, or refused inside of the literal. -/
theorem takeString_escape (c : Char) (rest : List Char) :
    takeString refuses '\'' (escape c ++ rest)
      = if spoils refuses c then none
        else (takeString refuses '\'' rest).map fun p => (c :: p.1, p.2) := by
  unfold spoils escape
  split
  · next hc => simpa [hc] using takeString_backslash refuses rest (d := '\\') rfl
  split
  · next hc => simpa [hc] using takeString_backslash refuses rest (d := '\'') rfl
  split
  · next hc => simpa [hc] using takeString_backslash refuses rest (d := 'n') rfl
  · next hback hquote _ =>
    rw [List.singleton_append, takeString, if_neg hquote, if_neg hback]
    simp

/-- The reader takes the literal of a text up to its closing quote, unless a character of the text
is refused before. -/
theorem takeString_escaped (s rest : List Char) :
    takeString refuses '\'' (s.flatMap escape ++ '\'' :: rest)
      = if s.any (spoils refuses) then none else some (s, rest) := by
  induction s with
  | nil => simp [takeString]
  | cons c s ih =>
    rw [List.flatMap_cons, List.append_assoc, takeString_escape, ih, List.any_cons]
    cases spoils refuses c <;> cases s.any (spoils refuses) <;> rfl

theorem takeItem_optional (x : Option String) (rest : List Char) :
    takeItem refuses ((optionalLiteral x).toList ++ rest)
      = if isSpoiled refuses x then none else some (x, rest) := by
  cases x with
  | none => simp [optionalLiteral, takeItem, isSpoiled]
  | some s =>
    have h := takeString_escaped refuses s.toList rest
    simp only [optionalLiteral, stringLiteral, String.toList_ofList, List.cons_append,
      List.append_assoc, List.nil_append, takeItem, isSpoiled, Option.any_some, h]
    rw [apply_ite (Option.map _), Option.map_none, Option.map_some, String.ofList_toList]
    rfl

theorem skipBlanks_optional (x : Option String) (rest : List Char) :
    skipBlanks ((optionalLiteral x).toList ++ rest) = (optionalLiteral x).toList ++ rest := by
  cases x <;> simp [optionalLiteral, stringLiteral, skipBlanks]

/-- What follows the first item of a tuple, up to the parenthesis that closes it. -/
def tupleRest : List (Option String) → List Char
  | [] => [')']
  | x :: xs => ',' :: ' ' :: ((optionalLiteral x).toList ++ tupleRest xs)

theorem joinWith_optionals (x : Option String) (xs : List (Option String)) :
    (joinWith ", " ((x :: xs).map optionalLiteral)).toList ++ [')']
      = (optionalLiteral x).toList ++ tupleRest xs := by
  induction xs generalizing x with
  | nil => simp [joinWith, tupleRest]
  | cons y ys ih =>
    rw [tupleRest, ← ih y]
    simp [joinWith, String.intercalate_cons_cons]

theorem toList_indexLiteral (i : ParameterIndex) :
    (indexLiteral i).toList
      = '(' :: ((optionalLiteral i.name).toList
          ++ tupleRest [i.phase, i.stream, i.reaction, i.species]) := by
  rw [← joinWith_optionals]
  simp [indexLiteral, optionalLiteral]

/-- A tuple does not end right after a comma, where the next literal comes. -/
theorem skipBlanks_comma (x : Option String) (rest t : List Char) :
    skipBlanks (' ' :: ((optionalLiteral x).toList ++ rest)) ≠ ')' :: t := by
  cases x <;> simp [skipBlanks, optionalLiteral, stringLiteral]

theorem takeItems_spoiled {x : Option String} (hx : isSpoiled refuses x) (rest : List Char) :
    takeItems refuses ((optionalLiteral x).toList ++ rest) = none := by
  refine takeItems_none ?_
  rw [skipBlanks_optional, takeItem_optional, if_pos hx]

theorem takeItem_kept {x : Option String} (hx : ¬isSpoiled refuses x) (rest : List Char) :
    takeItem refuses (skipBlanks ((optionalLiteral x).toList ++ rest)) = some (x, rest) := by
  rw [skipBlanks_optional, takeItem_optional, if_neg hx]

theorem takeItems_literals (x : Option String) (xs : List (Option String)) :
    takeItems refuses ((optionalLiteral x).toList ++ tupleRest xs)
      = if (x :: xs).any (isSpoiled refuses) then none else some (x :: xs, []) := by
  induction xs generalizing x with
  | nil =>
    by_cases hx : isSpoiled refuses x
    · simp [takeItems_spoiled refuses hx, hx]
    · rw [tupleRest, takeItems_last (takeItem_kept refuses hx _) rfl]
      simp [hx]
  | cons y ys ih =>
    by_cases hx : isSpoiled refuses x
    · simp [takeItems_spoiled refuses hx, hx]
    · have hblank (cs : List Char) : takeItems refuses (' ' :: cs) = takeItems refuses cs := by
        rw [takeItems, takeItems]
        rfl
      rw [tupleRest, takeItems_more (takeItem_kept refuses hx _) rfl (skipBlanks_comma y _), hblank,
        ih y]
      rw [List.any_cons (a := x)]
      split <;> simp_all

/-- The literal of a text denotes it, if no character of the text is refused. -/
theorem string?_literal (s : String) :
    string? refuses (stringLiteral s) = if s.toList.any (spoils refuses) then none else some s := by
  have h := takeItem_optional refuses (some s) []
  rw [List.append_nil, isSpoiled, Option.any_some] at h
  rw [string?, ← optionalLiteral, h]
  by_cases hs : s.toList.any (spoils refuses)
  · rw [if_pos hs, if_pos hs]
  · rw [if_neg hs, if_neg hs]

/-- The literal of an index denotes its five parts, if no character of them is refused. -/
theorem tuple?_literal (i : ParameterIndex) :
    tuple? refuses (indexLiteral i)
      = if i.parts.any (isSpoiled refuses) then none else some i.parts := by
  have h := takeItems_literals refuses (some i.name) [i.phase, i.stream, i.reaction, i.species]
  rw [← ParameterIndex.parts] at h
  simp only [tuple?, toList_indexLiteral, h]
  by_cases hs : i.parts.any (isSpoiled refuses)
  · rw [if_pos hs, if_pos hs]
  · rw [if_neg hs, if_neg hs]
    rfl

end

section

variable {c : Char} (hc : isRefused c)

include hc

/-- No line feed stands in a literal, and of the other refused characters those of its text. -/
theorem mem_optionalLiteral_of_isRefused (x : Option String) : c ∈ (optionalLiteral x).toList ↔
    c ≠ '\n' ∧ x.any fun s => s.toList.contains c := by
  have hescape (d : Char) : c ∈ escape d ↔ c ≠ '\n' ∧ d = c := by
    grind [escape, isRefused, isLineEnd]
  obtain ⟨hquote, hnone⟩ : c ≠ '\'' ∧ c ∉ "None".toList := by
    refine ⟨?_, fun hin => ?_⟩
    · rintro rfl
      cases hc
    · rcases (by simpa using hin : c = 'N' ∨ c = 'o' ∨ c = 'n' ∨ c = 'e') with
        rfl | rfl | rfl | rfl <;> cases hc
  cases x with
  | none => simpa [optionalLiteral] using hnone
  | some s => simp [optionalLiteral, stringLiteral, hescape, hquote, and_left_comm]

theorem mem_tupleRest_of_isRefused (xs : List (Option String)) : c ∈ tupleRest xs ↔
    c ≠ '\n' ∧ xs.any fun x => x.any fun s => s.toList.contains c := by
  obtain ⟨hparen, hcomma, hblank⟩ : c ≠ ')' ∧ c ≠ ',' ∧ c ≠ ' ' := by
    refine ⟨?_, ?_, ?_⟩ <;> rintro rfl <;> cases hc
  induction xs with
  | nil => simpa [tupleRest] using hparen
  | cons x xs ih =>
    simp [tupleRest, hcomma, hblank, mem_optionalLiteral_of_isRefused hc, ih, and_or_left]

theorem mem_indexLiteral_of_isRefused (i : ParameterIndex) :
    c ∈ (indexLiteral i).toList ↔ c ≠ '\n' ∧ i.holds c := by
  have hparen : c ≠ '(' := by rintro rfl; cases hc
  simp [toList_indexLiteral, hparen, mem_optionalLiteral_of_isRefused hc,
    mem_tupleRest_of_isRefused hc, ParameterIndex.holds, ParameterIndex.parts, and_or_left]

end

/-- Different indices have different literals. -/
theorem indexLiteral_injective : Function.Injective indexLiteral := by
  have hunix (i : ParameterIndex) : tuple? isLineFeed (indexLiteral i) = some i.parts := by
    simp [tuple?_literal, isSpoiled_isLineFeed]
  intro i j h
  have hparts := congrArg (tuple? isLineFeed) h
  rw [hunix, hunix] at hparts
  exact ParameterIndex.parts_injective (Option.some.inj hparts)

/-- The literals of a program hold no line feed, and the carriage returns and null characters of
what they write. Read where only line feeds are refused, the literal of a text denotes the text and
the literal of an index its five parts. To Python they denote these exactly if neither of the other
two is in them, and are no literals of one line otherwise. Different indices have different
literals. -/
theorem literals_denote (s : String) (i j : ParameterIndex) :
    ('\n' ∉ (stringLiteral s).toList ∧
      ('\r' ∈ (stringLiteral s).toList ↔ '\r' ∈ s.toList) ∧
      ('\x00' ∈ (stringLiteral s).toList ↔ '\x00' ∈ s.toList) ∧
      string? isLineFeed (stringLiteral s) = some s ∧
      string? isRefused (stringLiteral s) =
        if '\r' ∈ s.toList ∨ '\x00' ∈ s.toList then none else some s) ∧
    ('\n' ∉ (indexLiteral i).toList ∧
      ('\r' ∈ (indexLiteral i).toList ↔ i.holds '\r') ∧
      ('\x00' ∈ (indexLiteral i).toList ↔ i.holds '\x00') ∧
      tuple? isLineFeed (indexLiteral i) = some i.parts ∧
      tuple? isRefused (indexLiteral i) =
        if i.holds '\r' ∨ i.holds '\x00' then none else some i.parts) ∧
    (indexLiteral i = indexLiteral j ↔ i = j) := by
  have hstring {c : Char} (hc : isRefused c) :
      c ∈ (stringLiteral s).toList ↔ c ≠ '\n' ∧ c ∈ s.toList := by
    simpa [optionalLiteral] using mem_optionalLiteral_of_isRefused hc (some s)
  refine ⟨⟨?_, ?_, ?_, ?_, ?_⟩, ⟨?_, ?_, ?_, ?_, ?_⟩, indexLiteral_injective.eq_iff⟩
  · simp [hstring (c := '\n') rfl]
  · simp [hstring (c := '\r') rfl]
  · simp [hstring (c := '\x00') rfl]
  · simp [string?_literal, spoils_isLineFeed]
  · simp only [string?_literal, any_spoils_isRefused]
  · simp [mem_indexLiteral_of_isRefused (c := '\n') rfl]
  · simp [mem_indexLiteral_of_isRefused (c := '\r') rfl]
  · simp [mem_indexLiteral_of_isRefused (c := '\x00') rfl]
  · simp [tuple?_literal, isSpoiled_isLineFeed]
  · simp only [tuple?_literal, any_isSpoiled_isRefused]

end Program

end Kinetics

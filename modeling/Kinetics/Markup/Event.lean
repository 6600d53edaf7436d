import Kinetics.Markup.Reference

/-!
# Kinetics.Markup.Event

Markup as a list of events: tags, text, references and verbatim text. Comments, instructions and
declarations leave no event. Text is cut at every tag and every reference, and each piece loses the
separators at its ends. A document that breaks off or nests its tags wrongly yields the events up
to that place, so what went wrong earlier is still found first.
-/

namespace Kinetics

namespace Markup

inductive Event where
  /-- a start tag: its name, and the text of its attributes -/
  | opening (name attributes : List Char)
  /-- a tag that opens and closes its element -/
  | single (name attributes : List Char)
  | closing (name : List Char)
  | text (cs : List Char)
  | reference (name : List Char)
  | verbatim (cs : List Char)
  deriving DecidableEq

def isSeparator (c : Char) : Bool :=
  c = ' ' || c = '\t' || c = '\n' || c = '\r'

/-- Text without the separators at its ends. -/
def stripSeparators (cs : List Char) : List Char :=
  ((cs.dropWhile isSeparator).reverse.dropWhile isSeparator).reverse

/-- What stands before the first occurrence of a mark, and what follows it. -/
def splitAtMark (mark : List Char) : List Char → Option (List Char × List Char)
  | [] => none
  | c :: r =>
    if mark.isPrefixOf (c :: r) then some ([], (c :: r).drop mark.length)
    else
      match splitAtMark mark r with
      | some p => some (c :: p.1, p.2)
      | none => none

/-- The content of a tag up to the first closing angle outside quotes. -/
def takeTag (quote : Option Char) : List Char → Option (List Char × List Char)
  | [] => none
  | c :: r =>
    let quote' :=
      match quote with
      | some q => if c = q then none else some q
      | none => if c = '\'' || c = '"' then some c else none
    if c = '>' && quote.isNone then some ([], r)
    else
      match takeTag quote' r with
      | some p => some (c :: p.1, p.2)
      | none => none

/-- The content of a declaration, in which angles nest. -/
def takeNested (depth : Nat) : List Char → Option (List Char × List Char)
  | [] => none
  | c :: r =>
    if c = '>' && depth = 0 then some ([], r)
    else
      match takeNested (if c = '<' then depth + 1 else if c = '>' then depth - 1 else depth) r with
      | some p => some (c :: p.1, p.2)
      | none => none

theorem length_splitAtMark {mark cs before rest : List Char}
    (h : splitAtMark mark cs = some (before, rest)) : rest.length ≤ cs.length := by
  induction cs generalizing before with
  | nil => cases h
  | cons c r ih =>
    simp only [splitAtMark] at h
    split at h
    · cases h
      simp only [List.length_drop]
      omega
    · split at h
      · rename_i p hp
        cases h
        exact Nat.le_succ_of_le (ih hp)
      · cases h

theorem takeTag_append {quote : Option Char} {cs content rest : List Char}
    (h : takeTag quote cs = some (content, rest)) : content ++ '>' :: rest = cs := by
  induction cs generalizing quote content with
  | nil => cases h
  | cons c r ih =>
    simp only [takeTag] at h
    split at h
    · rename_i hc
      cases h
      simp_all
    · split at h
      · rename_i p hp
        cases h
        simp [ih hp]
      · cases h

theorem takeNested_append {depth : Nat} {cs content rest : List Char}
    (h : takeNested depth cs = some (content, rest)) : content ++ '>' :: rest = cs := by
  induction cs generalizing depth content with
  | nil => cases h
  | cons c r ih =>
    simp only [takeNested] at h
    split at h
    · rename_i hc
      cases h
      simp_all
    · split at h
      · rename_i p hp
        cases h
        simp [ih hp]
      · cases h

/-- The name of an end tag: its content without the separators at the end, unless nothing else is
left. -/
def closingName (content : List Char) : List Char :=
  let stripped := (content.reverse.dropWhile isSeparator).reverse
  if stripped.isEmpty then content else stripped

/-- The event of a start tag's content; a slash at the end closes the element at once. -/
def openingEvent (content : List Char) : Event :=
  let name (cs : List Char) := cs.takeWhile fun c => !isSeparator c
  let rest (cs : List Char) := cs.dropWhile fun c => !isSeparator c
  if content.getLast? = some '/' then .single (name content.dropLast) (rest content.dropLast)
  else .opening (name content) (rest content)

/-- Whether a text is the word of a document type declaration, in either case of letters. -/
def isDoctypeWord (cs : List Char) : Bool :=
  cs.map Char.toUpper == "DOCTYPE".toList

/-- What follows an opening angle and an exclamation mark. -/
def takeDeclaration (r : List Char) : Option (Option Event × List Char) :=
  if "--".toList.isPrefixOf r then
    match splitAtMark "-->".toList (r.drop 2) with
    | some (_, rest) => some (none, rest)
    | none => none
  else if "[CDATA[".toList.isPrefixOf r then
    match splitAtMark "]]>".toList (r.drop 7) with
    | some (cs, rest) => some (some (.verbatim cs), rest)
    | none => none
  else if isDoctypeWord (r.take 7) then
    match takeNested 0 (r.drop 7) with
    | some (content, rest) => if content.all isSeparator then none else some (none, rest)
    | none => none
  else none

/-- What follows an opening angle and a question mark. An instruction ends at the first closing
angle after a question mark, and the question mark that opens it may not be that one. -/
def takeInstruction (r : List Char) : Option (Option Event × List Char) :=
  if r.head? = some '>' then none
  else
    match splitAtMark "?>".toList r with
    | some (_, rest) => some (none, rest)
    | none => none

/-- What follows an opening angle. -/
def takeMarkup (r : List Char) : Option (Option Event × List Char) :=
  match r with
  | '!' :: r => takeDeclaration r
  | '?' :: r => takeInstruction r
  | '/' :: r =>
    match takeTag none r with
    | some (content, rest) => some (some (.closing (closingName content)), rest)
    | none => none
  | r =>
    match takeTag none r with
    | some (content, rest) => some (some (openingEvent content), rest)
    | none => none

def isTextEnd (c : Char) : Bool :=
  c = '<' || c = '&'

/-- The construct that starts with a character, and what follows it. -/
def takeConstruct (c : Char) (r : List Char) : Option (Option Event × List Char) :=
  if c = '<' then takeMarkup r
  else if c = '&' then
    match takeReference r with
    | some (name, rest) => some (some (.reference name), rest)
    | none => none
  else
    some (some (.text (stripSeparators (c :: r.takeWhile fun d => !isTextEnd d))),
      r.dropWhile fun d => !isTextEnd d)

theorem length_takeDeclaration {r rest : List Char} {e : Option Event}
    (h : takeDeclaration r = some (e, rest)) : rest.length ≤ r.length := by
  unfold takeDeclaration at h
  split at h
  · split at h
    · rename_i hs
      cases h
      have := length_splitAtMark hs
      simp only [List.length_drop] at this
      omega
    · cases h
  · split at h
    · split at h
      · rename_i hs
        cases h
        have := length_splitAtMark hs
        simp only [List.length_drop] at this
        omega
      · cases h
    · split at h
      · split at h
        · rename_i hs
          split at h
          · cases h
          · cases h
            have := congrArg List.length (takeNested_append hs)
            simp only [List.length_append, List.length_cons, List.length_drop] at this
            omega
        · cases h
      · cases h

theorem length_takeInstruction {r rest : List Char} {e : Option Event}
    (h : takeInstruction r = some (e, rest)) : rest.length ≤ r.length := by
  unfold takeInstruction at h
  split at h
  · cases h
  · split at h
    · rename_i hs
      cases h
      exact length_splitAtMark hs
    · cases h

theorem length_takeMarkup {r rest : List Char} {e : Option Event}
    (h : takeMarkup r = some (e, rest)) : rest.length ≤ r.length := by
  unfold takeMarkup at h
  split at h
  · exact Nat.le_succ_of_le (length_takeDeclaration h)
  · exact Nat.le_succ_of_le (length_takeInstruction h)
  · split at h
    · rename_i ht
      cases h
      have := congrArg List.length (takeTag_append ht)
      simp only [List.length_append, List.length_cons] at this ⊢
      omega
    · cases h
  · split at h
    · rename_i ht
      cases h
      have := congrArg List.length (takeTag_append ht)
      simp only [List.length_append, List.length_cons] at this
      omega
    · cases h

theorem length_takeConstruct {c : Char} {r rest : List Char} {e : Option Event}
    (h : takeConstruct c r = some (e, rest)) : rest.length ≤ r.length := by
  unfold takeConstruct at h
  split at h
  · exact length_takeMarkup h
  · split at h
    · split at h
      · rename_i hr
        cases h
        have := congrArg List.length (takeReference_append hr)
        simp only [List.length_append, List.length_cons] at this
        omega
      · cases h
    · cases h
      exact (List.dropWhile_suffix _).length_le

/-- The events of a text up to its end or to the first construct that is broken, and whether the
end was reached. -/
def scan : List Char → List Event × Bool
  | [] => ([], true)
  | c :: r =>
    match _h : takeConstruct c r with
    | none => ([], false)
    | some (none, rest) => scan rest
    | some (some e, rest) =>
      let p := scan rest
      (e :: p.1, p.2)
termination_by cs => cs.length
decreasing_by
  · exact Nat.lt_succ_of_le (length_takeConstruct _h)
  · exact Nat.lt_succ_of_le (length_takeConstruct _h)

/-- The events up to the first end tag that does not close the innermost open element, and whether
there is none. -/
def nested (opened : List (List Char)) : List Event → List Event × Bool
  | [] => ([], true)
  | .opening name attributes :: es =>
    let p := nested (name :: opened) es
    (.opening name attributes :: p.1, p.2)
  | .closing name :: es =>
    match opened with
    | top :: below =>
      if top = name then
        let p := nested below es
        (.closing name :: p.1, p.2)
      else ([], false)
    | [] => ([], false)
  | e :: es =>
    let p := nested opened es
    (e :: p.1, p.2)

/-- Drops a byte order mark. -/
def withoutMark : List Char → List Char
  | '\uFEFF' :: r => r
  | cs => cs

/-- The events of a document, and whether it is well formed. -/
def events (text : List Char) : List Event × Bool :=
  let s := scan (withoutMark text)
  let n := nested [] s.1
  (n.1, s.2 && n.2)

/-- A name without the part before its first colon. -/
def localName (name : List Char) : String :=
  String.ofList
    (match name.dropWhile (· != ':') with
    | _ :: r => r
    | [] => name)

end Markup

end Kinetics

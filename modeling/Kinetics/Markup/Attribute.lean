import Kinetics.Markup.Event

/-!
# Kinetics.Markup.Attribute

The attributes of a start tag. A name runs from the first character that is no separator to the
next equals sign or separator, a value stands in quotes, and no full name may stand twice.
References are resolved in values.
-/

namespace Kinetics

namespace Markup

/-- A text with its references resolved. -/
def resolveAll : List Char → Option (List Char)
  | [] => some []
  | c :: r =>
    if c = '&' then
      match _h : takeReference r with
      | none => none
      | some (name, rest) =>
        match resolve? name with
        | none => none
        | some d => (resolveAll rest).map (d :: ·)
    else (resolveAll r).map (c :: ·)
termination_by cs => cs.length
decreasing_by
  · have := congrArg List.length (takeReference_append _h)
    simp only [List.length_append, List.length_cons] at this ⊢
    omega
  · simp

def endsName (c : Char) : Bool :=
  c = '=' || isSeparator c

/-- The name and the unresolved value of the attribute that starts with a character, and what
follows it. -/
def takeAttribute (c : Char) (r : List Char) : Option ((List Char × List Char) × List Char) :=
  let name := c :: r.takeWhile fun d => !endsName d
  match (r.dropWhile fun d => !endsName d).dropWhile isSeparator with
  | '=' :: r =>
    match r.dropWhile isSeparator with
    | q :: r =>
      if q = '"' || q = '\'' then
        match r.dropWhile fun d => d != q with
        | _ :: rest => some ((name, r.takeWhile fun d => d != q), rest)
        | [] => none
      else none
    | [] => none
  | _ => none

theorem length_takeAttribute {c : Char} {r rest : List Char} {a : List Char × List Char}
    (h : takeAttribute c r = some (a, rest)) : rest.length < r.length := by
  have hd (p : Char → Bool) (cs : List Char) : (cs.dropWhile p).length ≤ cs.length :=
    (List.dropWhile_suffix p).length_le
  unfold takeAttribute at h
  simp only at h
  split at h
  · rename_i r1 h1
    split at h
    · rename_i q r2 h2
      split at h
      · split at h
        · rename_i x r3 h3
          cases h
          have e1 := congrArg List.length h1
          have e2 := congrArg List.length h2
          have e3 := congrArg List.length h3
          have l1 := hd isSeparator (r.dropWhile fun d => !endsName d)
          have l1' := hd (fun d => !endsName d) r
          have l2 := hd isSeparator r1
          have l3 := hd (fun d => d != q) r2
          simp only [List.length_cons] at e1 e2 e3
          omega
        · cases h
      · cases h
    · cases h
  · cases h

/-- The attributes by full name, in order, with their values resolved. -/
def attributesFrom (seen : List (List Char)) :
    List Char → Option (List (List Char × List Char))
  | [] => some []
  | c :: r =>
    if isSeparator c then attributesFrom seen r
    else
      match _h : takeAttribute c r with
      | none => none
      | some ((name, value), rest) =>
        if seen.contains name then none
        else
          match resolveAll value with
          | none => none
          | some v => (attributesFrom (name :: seen) rest).map ((name, v) :: ·)
termination_by cs => cs.length
decreasing_by
  · simp
  · exact Nat.lt_succ_of_lt (length_takeAttribute _h)

/-- The attributes of a tag by local name. -/
def attributes? (text : List Char) : Option (List (String × String)) :=
  (attributesFrom [] text).map fun as => as.map fun a => (localName a.1, String.ofList a.2)

end Markup

end Kinetics

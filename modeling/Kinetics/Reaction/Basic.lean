import Kinetics.Fault
import Kinetics.Reaction.Coefficient
import Kinetics.Text.Blank

/-!
# Kinetics.Reaction.Basic

Reactions such as `2 A + B > C`, read against declared species. An arrow separates reactants from
products, a plus between blanks separates terms, and a number before a name is its coefficient. A
species that occurs several times counts with the sum of its signed coefficients, and participants
are listed in the order of declaration.
-/

namespace Kinetics

structure Reaction where
  text : String
  participants : List (String × Coefficient)
  deriving DecidableEq

namespace Reaction

open Text

/-- What follows an arrow at the front. -/
def afterArrow? : List Char → Option (List Char)
  | '-' :: '>' :: r => some r
  | '=' :: '>' :: r => some r
  | '>' :: r => some r
  | _ => none

theorem length_afterArrow? {cs r : List Char} (h : afterArrow? cs = some r) :
    r.length < cs.length := by
  unfold afterArrow? at h
  split at h
  · cases h; simp only [List.length_cons]; omega
  · cases h; simp only [List.length_cons]; omega
  · cases h; simp
  · cases h

/-- The parts of a text between its arrows; the first part is given with its characters so far,
the last one first. -/
def splitArrows (part : List Char) : List Char → List (List Char)
  | [] => [part.reverse]
  | c :: r =>
    match _h : afterArrow? (c :: r) with
    | some rest => part.reverse :: splitArrows [] rest
    | none => splitArrows (c :: part) r
termination_by cs => cs.length
decreasing_by
  · exact length_afterArrow? _h
  · simp

/-- What follows a separating plus that stands at the front with the blanks before it: a plus with
a blank or nothing after it. -/
def afterPlus? : List Char → Option (List Char)
  | '+' :: [] => some []
  | '+' :: c :: r => if isBlank c then some (trimStart r) else none
  | _ => none

theorem length_afterPlus? {cs r : List Char} (h : afterPlus? cs = some r) :
    r.length < cs.length := by
  unfold afterPlus? at h
  split at h
  · cases h; simp
  · rename_i c r'
    split at h
    · cases h
      have := (List.dropWhile_suffix isBlank (l := r')).length_le
      simp only [List.length_cons, trimStart]
      omega
    · cases h
  · cases h

/-- The terms of a side after its first one has started; a term is given with its characters so
far, the last one first. -/
def splitPlus (term : List Char) : List Char → List (List Char)
  | [] => [term.reverse]
  | c :: r =>
    if isBlank c then
      match _h : afterPlus? (trimStart r) with
      | some rest => term.reverse :: splitPlus [] rest
      | none => splitPlus (c :: term) r
    else splitPlus (c :: term) r
termination_by cs => cs.length
decreasing_by
  · have h1 := length_afterPlus? _h
    have h2 := (List.dropWhile_suffix isBlank (l := r)).length_le
    simp only [trimStart] at h1
    simp only [List.length_cons]
    omega
  · simp
  · simp

/-- The terms of a side without blanks around it. A plus and a blank at the very start separate an
empty term. -/
def terms (side : List Char) : List (List Char) :=
  match side with
  | '+' :: c :: r => if isBlank c then [] :: splitPlus [] (trimStart r) else splitPlus [] side
  | _ => splitPlus [] side

/-- The coefficient that a run of digits of any script writes; only ASCII digits write another one
than one. -/
def countOf (digits : List Char) : Coefficient :=
  if digits.all Char.isDigit then .ofDigits digits else .one

/-- The count and the species of a term: digits, blanks and a name without blanks. Digits alone are
a name whose last digit is kept apart from its count. -/
def readTerm? (term : List Char) : Option (Coefficient × List Char) :=
  let digits := term.takeWhile isDecimal
  let rest := term.dropWhile isDecimal
  match digits, rest with
  | [], [] => none
  | [], name => if name.any isBlank then none else some (.one, name)
  | [d], [] => some (.one, [d])
  | ds, [] => some (countOf ds.dropLast, ds.drop (ds.length - 1))
  | ds, rest => if (trimStart rest).any isBlank then none else some (countOf ds, trimStart rest)

/-- The counts and species of a list of terms. -/
def readTerms (text : String) : List (List Char) → Except Fault (List (String × Coefficient))
  | [] => .ok []
  | t :: ts =>
    match readTerm? (trim t) with
    | none => .error (.unreadableTerm (String.ofList (trim t)) text)
    | some (count, name) =>
      match readTerms text ts with
      | .error e => .error e
      | .ok rest => .ok ((String.ofList name, count) :: rest)

def readSide (text : String) (side : List Char) : Except Fault (List (String × Coefficient)) :=
  readTerms text (terms (trim side))

/-- The net coefficient of a species, if it occurs. -/
def net? (signed : List (String × Coefficient)) (species : String) : Option Coefficient :=
  match signed.filter fun t => t.1 == species with
  | [] => none
  | t :: ts => some (ts.foldl (fun c u => c.add u.2) t.2)

/-- The participants in the order of declaration. -/
def participantsOf (species : List String) (signed : List (String × Coefficient)) :
    List (String × Coefficient) :=
  species.eraseDups.filterMap fun s => (net? signed s).map fun c => (s, c)

/-- Reads a reaction against the declared species. -/
def read (species : List String) (text : String) : Except Fault Reaction :=
  match splitArrows [] (trim text.toList) with
  | [left, right] =>
    if allBlank left || allBlank right then .error (.unreadableSides text)
    else
      match readSide text left with
      | .error e => .error e
      | .ok reactants =>
        match readSide text right with
        | .error e => .error e
        | .ok products =>
          let signed := reactants.map (fun t => (t.1, t.2.neg)) ++ products
          match signed.find? fun t => !species.contains t.1 with
          | some t => .error (.undeclaredParticipant text t.1)
          | none => .ok ⟨text, participantsOf species signed⟩
  | _ => .error (.unreadableSides text)

def coefficient? (r : Reaction) (species : String) : Option Coefficient :=
  r.participants.lookup species

def involves (r : Reaction) (species : String) : Bool :=
  (r.coefficient? species).isSome

/-- The variable that holds the coefficients of all reactions. -/
def coefficientName : String :=
  "Stoichiometric_Coefficient"

/-- The entry of the parameter table for a participant. -/
def indexOf (r : Reaction) (species : String) : ParameterIndex :=
  ⟨coefficientName, none, none, some r.text, some species⟩

/-- The entries of the parameter table for all coefficients. -/
def stoichiometry (rs : List Reaction) : List (ParameterIndex × Coefficient) :=
  rs.flatMap fun r => r.participants.map fun p => (r.indexOf p.1, p.2)

end Reaction

end Kinetics

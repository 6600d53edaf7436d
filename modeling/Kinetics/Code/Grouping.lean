import Kinetics.Code.Token

/-!
# Kinetics.Code.Grouping

Parentheses that only group. A closing bracket of any kind closes the nearest opening bracket that
is still open, so the content of a bracket is what stands before depth returns to nought. Two
passes remove pairs and nothing else: `collapse` takes one pair off a doubled pair, `strip` takes
away the pairs around terms that need none.
-/

namespace Kinetics

namespace Code

/-- The calls whose argument keeps its own parentheses around it. -/
def keptCalls : List (List Char) :=
  ["np.exp".toList, "np.sum".toList, "np.prod".toList, "np.maximum".toList, "np.matmul".toList,
    "len".toList]

/-- The tokens before the bracket that closes the current one, that bracket, and the rest. -/
def splitGroup : Nat → List Token → Option (List Token × Token × List Token)
  | _, [] => none
  | depth, .opening b :: r =>
    match splitGroup (depth + 1) r with
    | some (inside, closer, rest) => some (.opening b :: inside, closer, rest)
    | none => none
  | 0, .closing b :: r => some ([], .closing b, r)
  | depth + 1, .closing b :: r =>
    match splitGroup depth r with
    | some (inside, closer, rest) => some (.closing b :: inside, closer, rest)
    | none => none
  | depth, t :: r =>
    match splitGroup depth r with
    | some (inside, closer, rest) => some (t :: inside, closer, rest)
    | none => none

theorem splitGroup_append {depth : Nat} {ts inside rest : List Token} {closer : Token}
    (h : splitGroup depth ts = some (inside, closer, rest)) :
    inside ++ closer :: rest = ts := by
  fun_induction splitGroup depth ts generalizing inside closer rest <;> simp_all
  all_goals grind

/-- A parenthesis groups when no call or subscript target stands before it. -/
def opensGroup (before : Option Token) (t : Token) : Bool :=
  t == .opening .round && !(before.any Token.takesBracket)

/-- A doubled pair at the front, given as the tokens after its two opening parentheses: what is
left after the first of the two when the outer pair goes. -/
def innerOfDouble (ts : List Token) : Option (List Token) :=
  match splitGroup 0 ts with
  | some (inside, closer, .closing _ :: rest) => some (inside ++ closer :: rest)
  | _ => none

theorem innerOfDouble_length {ts us : List Token} (h : innerOfDouble ts = some us) :
    us.length < ts.length := by
  unfold innerOfDouble at h
  split at h
  · rename_i inside closer b rest hs
    cases h
    rw [← splitGroup_append hs]
    simp
  · cases h

/-- One pass from the left in which a doubled pair loses its outer pair; the inner pair is then
passed over, so of three pairs two remain. -/
def collapse (before : Option Token) : List Token → List Token
  | [] => []
  | t :: r =>
    match opensGroup before t, r with
    | true, .opening .round :: ts =>
      match _h : innerOfDouble ts with
      | some us => .opening .round :: collapse (some (.opening .round)) us
      | none => t :: collapse (some t) (.opening .round :: ts)
    | _, r => t :: collapse (some t) r
termination_by ts => ts.length
decreasing_by
  · have := innerOfDouble_length _h
    simp only [List.length_cons]
    omega
  · simp
  · simp

theorem collapse_nil (before : Option Token) : collapse before [] = [] := by
  rw [collapse]

/-- Whether an operator, separator or comment stands outside all brackets. -/
def hasLoose : Nat → List Token → Bool
  | _, [] => false
  | depth, .opening _ :: r => hasLoose (depth + 1) r
  | depth, .closing _ :: r => hasLoose (depth - 1) r
  | depth, .operator _ :: r => depth == 0 || hasLoose depth r
  | depth, .comma :: r => depth == 0 || hasLoose depth r
  | depth, .colon :: r => depth == 0 || hasLoose depth r
  | depth, .comment _ :: r => depth == 0 || hasLoose depth r
  | depth, _ :: r => hasLoose depth r

theorem hasLoose_nil (depth : Nat) : hasLoose depth [] = false := by
  simp [hasLoose]

def startsKeptCall : List Token → Bool
  | .name s :: .opening .round :: _ => keptCalls.contains s
  | _ => false

/-- A term is atomic when nothing at its top level could bind looser than its surroundings; the
reserved calls do not count. -/
def isTight (ts : List Token) : Bool :=
  !ts.isEmpty && !startsKeptCall ts && !hasLoose 0 ts

/-- Takes away the first grouping pair around an atomic term. -/
def stripFirst (before : Option Token) : List Token → Option (List Token)
  | [] => none
  | t :: r =>
    let here :=
      if opensGroup before t then
        match splitGroup 0 r with
        | some (inside, _, rest) => if isTight inside then some (inside ++ rest) else none
        | none => none
      else none
    match here with
    | some ts => some ts
    | none =>
      match stripFirst (some t) r with
      | some ts => some (t :: ts)
      | none => none

theorem stripFirst_length {before : Option Token} {ts us : List Token}
    (h : stripFirst before ts = some us) : us.length < ts.length := by
  induction ts generalizing before us with
  | nil => cases h
  | cons t r ih =>
    simp only [stripFirst] at h
    split at h
    · rename_i vs hv
      cases h
      split at hv
      · split at hv
        · rename_i inside closer rest hs
          split at hv
          · cases hv
            have hl := congrArg List.length (splitGroup_append hs)
            simp only [List.length_append, List.length_cons] at hl ⊢
            omega
          · cases hv
        · cases hv
      · cases hv
    · split at h
      · rename_i vs hv
        cases h
        have := ih hv
        simp only [List.length_cons]
        omega
      · cases h

/-- Takes grouping pairs away, the first one each time, until none stands around an atomic term. -/
def strip (ts : List Token) : List Token :=
  match _h : stripFirst none ts with
  | some us => strip us
  | none => ts
termination_by ts.length
decreasing_by exact stripFirst_length _h

end Code

end Kinetics

import Kinetics.Formula.Expression

/-!
# Kinetics.Formula.Optional

Optional brackets resolved. A bracket is kept as a group in parentheses or dropped, by its free
symbols. A dropped bracket that is a whole term takes its sign along, or the plus after it when it
leads; elsewhere it becomes nought. A row that loses everything is nought.
-/

namespace Kinetics

namespace Formula

namespace Node

def isSign (n : Node) : Bool :=
  n.isOperator "+" || n.isOperator "-" || n.isOperator "−"

/-- Whether nothing multiplies a term on the right. -/
def endsAtSign : List Node → Bool
  | [] => true
  | n :: _ => n.isSign

/-- Puts nought for an empty list of siblings. -/
def orNought (ns : List Node) : List Node :=
  if ns.isEmpty then [.number "0"] else ns

/-- A row of siblings, or nought without any. -/
def rowOrNought (ns : List Node) : Node :=
  if ns.isEmpty then .number "0" else .row ns

/-- Whether a node is a bracket that has become nought; only a dropped one does. -/
def isDropped : Node → Node → Bool
  | .fenced _ _ _, .number _ => true
  | _, _ => false

/-- Whether a bracket stays, asked with its free symbols. -/
def isKept (keep : NameSet → Bool) (content : List Node) : Except Fault (Noted Bool) :=
  match compile "" (.row content) with
  | .error e => .error e
  | .ok e => .ok ⟨keep e.freeSymbols, e.skipped⟩

mutual

/-- Resolves every optional bracket of a formula. -/
def prune (keep : NameSet → Bool) : Node → Except Fault (Noted Node)
  | .row children =>
    match pruneTerms keep [] false children with
    | .error e => .error e
    | .ok p => .ok ⟨rowOrNought p.result, p.skipped⟩
  | .fenced opener closer children =>
    if isOptional opener closer then
      match isKept keep children with
      | .error e => .error e
      | .ok k =>
        if k.result then
          match pruneTerms keep [] false children with
          | .error e => .error e
          | .ok p => .ok ⟨group (orNought p.result), k.skipped ++ p.skipped⟩
        else .ok ⟨.number "0", k.skipped⟩
    else
      match pruneTerms keep [] false children with
      | .error e => .error e
      | .ok p => .ok ⟨.fenced opener closer (orNought p.result), p.skipped⟩
  | .fraction a b =>
    match prune keep a with
    | .error e => .error e
    | .ok pa =>
      match prune keep b with
      | .error e => .error e
      | .ok pb => .ok ⟨.fraction pa.result pb.result, pa.skipped ++ pb.skipped⟩
  | .sup a b =>
    match prune keep a with
    | .error e => .error e
    | .ok pa =>
      match prune keep b with
      | .error e => .error e
      | .ok pb => .ok ⟨.sup pa.result pb.result, pa.skipped ++ pb.skipped⟩
  | .root children =>
    match pruneTerms keep [] false children with
    | .error e => .error e
    | .ok p => .ok ⟨.root (orNought p.result), p.skipped⟩
  | .sub a b => .ok ⟨.sub a b, []⟩
  | .identifier s => .ok ⟨.identifier s, []⟩
  | .number s => .ok ⟨.number s, []⟩
  | .operator s => .ok ⟨.operator s, []⟩
  | .space s => .ok ⟨.space s, []⟩
  | .text s => .ok ⟨.text s, []⟩
  | .unknown s => .ok ⟨.unknown s, []⟩

/-- Resolves the brackets among siblings. `before` holds the siblings that are done, the last one
first; after a dropped leading term a plus is skipped. -/
def pruneTerms (keep : NameSet → Bool) (before : List Node) (skipPlus : Bool) :
    List Node → Except Fault (Noted (List Node))
  | [] => .ok ⟨before.reverse, []⟩
  | n :: ns =>
    if skipPlus && n.isOperator "+" then pruneTerms keep before false ns
    else
      match prune keep n with
      | .error e => .error e
      | .ok p =>
        let whole := isDropped n p.result && endsAtSign ns
        let rest :=
          if whole && before.head?.any isSign then pruneTerms keep before.tail false ns
          else if whole && before.isEmpty then pruneTerms keep before true ns
          else pruneTerms keep (p.result :: before) false ns
        match rest with
        | .error e => .error e
        | .ok q => .ok ⟨q.result, p.skipped ++ q.skipped⟩

end

end Node

end Formula

end Kinetics

import Kinetics.Code.Grouping
import Kinetics.Code.Lexer
import Kinetics.Proofs.Arithmetic.Grammar
import Kinetics.Text.Digit

/-!
# Kinetics.Proofs.Python.Reader

The expressions of generated code, which is Python: names with dots in them, decimal numbers,
signs, the operators of arithmetic and comparison, calls, subscripts with slices, and tuples.
`read` is the method of operator precedence. Operations wait for their last operand in a list,
the innermost first; an operator that comes applies those that bind at least as tightly, and a
closing bracket applies all that wait since the bracket was opened. `Tree.value` is the number that
a tree denotes, in any field; powers, calls and what else is no arithmetic are left to an
interpretation.

Where an operand is left out, as in an empty pair of parentheses, at the end of a tuple and in a
slice, the tree says so. Parentheses that only group leave nothing in the tree.
-/

namespace Kinetics

namespace Python

open Arithmetic (Sign isName)
open Code Text

/-- What stands between two operands. -/
inductive Joint where
  | power
  | times
  | per
  | floor
  | plus
  | minus
  | less
  | greater
  | atMost
  | atLeast
  | equal
  | unequal
  | colon
  | comma
  deriving DecidableEq

namespace Joint

def token : Joint → Token
  | .power => .operator ['*', '*']
  | .times => .operator ['*']
  | .per => .operator ['/']
  | .floor => .operator ['/', '/']
  | .plus => .operator ['+']
  | .minus => .operator ['-']
  | .less => .operator ['<']
  | .greater => .operator ['>']
  | .atMost => .operator ['<', '=']
  | .atLeast => .operator ['>', '=']
  | .equal => .operator ['=', '=']
  | .unequal => .operator ['!', '=']
  | .colon => .colon
  | .comma => .comma

def all : List Joint :=
  [.power, .times, .per, .floor, .plus, .minus, .less, .greater, .atMost, .atLeast, .equal,
    .unequal, .colon, .comma]

def ofToken? (t : Token) : Option Joint :=
  all.find? fun o => o.token == t

/-- How tightly the operands are bound. A sign binds tighter than a product and looser than a
power. -/
def binds : Joint → Nat
  | .power => 6
  | .times => 4
  | .per => 4
  | .floor => 4
  | .plus => 3
  | .minus => 3
  | .colon => 1
  | .comma => 0
  | _ => 2

/-- The operations that are applied when the joint comes bind at least so tightly. Powers and
slices group from the right, all others from the left. -/
def applies : Joint → Nat
  | .power => 7
  | .colon => 2
  | o => o.binds

/-- Comparisons and separators: a chain of comparisons and a tuple are not what they are as an
operand of another. -/
def isLoose (o : Joint) : Bool :=
  o.binds < 3

def sign? : Joint → Option Sign
  | .plus => some .plus
  | .minus => some .minus
  | _ => none

@[simp]
theorem ofToken?_token (o : Joint) : ofToken? o.token = some o := by
  cases o <;> rfl

theorem token_of_ofToken? {t : Token} {o : Joint} (h : ofToken? t = some o) : o.token = t := by
  simpa using List.find?_some h

end Joint

/-- How tightly a sign binds its operand. -/
def signBinds : Nat := 5

/-- The operations that a line of code says. -/
inductive Tree where
  | name (path : List Char)
  | numeral (digits : List Char)
  /-- the place of an operand that is left out -/
  | absent
  | signed (s : Sign) (a : Tree)
  | joined (o : Joint) (a b : Tree)
  | call (f a : Tree)
  | subscript (f a : Tree)
  /-- a tuple or a comparison as an operand -/
  | enclosed (a : Tree)
  deriving DecidableEq

/-- Names with dots between them. -/
def isPath (cs : List Char) : Bool :=
  (cs.splitOn '.').all isName

/-- Digits, perhaps with a point among or beside them. -/
def isDecimal (cs : List Char) : Bool :=
  match cs.dropWhile Char.isDigit with
  | [] => !cs.isEmpty
  | '.' :: r => r.all Char.isDigit && !(r.isEmpty && (cs.takeWhile Char.isDigit).isEmpty)
  | _ => false

def isExponent : List Char → Bool
  | '+' :: r => !r.isEmpty && r.all Char.isDigit
  | '-' :: r => !r.isEmpty && r.all Char.isDigit
  | r => !r.isEmpty && r.all Char.isDigit

def marksExponent (c : Char) : Bool :=
  c == 'e' || c == 'E'

/-- A decimal number. Without a point and an exponent it starts with no nought, unless it is
nought. -/
def isNumeral (cs : List Char) : Bool :=
  match cs.dropWhile (!marksExponent ·) with
  | [] => isDecimal cs && !(cs.all Char.isDigit && cs.head? == some '0' && cs.any (· != '0'))
  | _ :: r => isDecimal (cs.takeWhile (!marksExponent ·)) && isExponent r

/-- What names and the operations besides arithmetic mean. -/
structure Meaning (K : Type) where
  name : List Char → K
  join : Joint → K → K → K
  call : K → K → K
  subscript : K → K → K
  enclosed : K → K
  absent : K

section Value

variable {K : Type} [Field K]

def fractionOf (cs : List Char) : List Char :=
  match cs.dropWhile Char.isDigit with
  | '.' :: r => r.takeWhile Char.isDigit
  | _ => []

def exponentValue : List Char → Int
  | '-' :: r => -digitsValue r
  | '+' :: r => digitsValue r
  | r => digitsValue r

/-- The number that decimal digits write. -/
def numeralValue (cs : List Char) : K :=
  digitsValue (cs.takeWhile Char.isDigit ++ fractionOf cs) / (10 : Nat) ^ (fractionOf cs).length *
    (10 : Nat) ^ exponentValue (cs.dropWhile (!marksExponent ·)).tail

def Joint.apply (m : Meaning K) : Joint → K → K → K
  | .plus, x, y => x + y
  | .minus, x, y => x - y
  | .times, x, y => x * y
  | .per, x, y => x / y
  | o, x, y => m.join o x y

def signedValue : Sign → K → K
  | .plus, x => x
  | .minus, x => -x

def Tree.value (m : Meaning K) : Tree → K
  | .name s => m.name s
  | .numeral s => numeralValue s
  | .absent => m.absent
  | .signed s a => signedValue s (a.value m)
  | .joined o a b => o.apply m (a.value m) (b.value m)
  | .call f a => m.call (f.value m) (a.value m)
  | .subscript f a => m.subscript (f.value m) (a.value m)
  | .enclosed a => m.enclosed (a.value m)

section Tree

variable (m : Meaning K) (s : Sign) (o : Joint) (a b : Tree)

@[simp] theorem Tree.value_numeral (w : List Char) : (Tree.numeral w).value m = numeralValue w := rfl

@[simp] theorem Tree.value_signed : (Tree.signed s a).value m = signedValue s (a.value m) := rfl

@[simp] theorem Tree.value_joined :
    (Tree.joined o a b).value m = o.apply m (a.value m) (b.value m) := rfl

end Tree

end Value

def Tree.mentionsName : Tree → Bool
  | .name _ => true
  | .numeral _ => false
  | .absent => false
  | .signed _ a => a.mentionsName
  | .joined _ a b => a.mentionsName || b.mentionsName
  | .call f a => f.mentionsName || a.mentionsName
  | .subscript f a => f.mentionsName || a.mentionsName
  | .enclosed a => a.mentionsName

@[simp] theorem Tree.mentionsName_signed (s : Sign) (a : Tree) :
    (Tree.signed s a).mentionsName = a.mentionsName := rfl

@[simp] theorem Tree.mentionsName_joined (o : Joint) (a b : Tree) :
    (Tree.joined o a b).mentionsName = (a.mentionsName || b.mentionsName) := rfl

/-- An operation that waits for its last operand. -/
inductive Pending where
  | sign (s : Sign)
  | joint (a : Tree) (o : Joint)
  deriving DecidableEq

namespace Pending

def binds : Pending → Nat
  | .sign _ => signBinds
  | .joint _ o => o.binds

def apply : Pending → Tree → Tree
  | .sign s, a => .signed s a
  | .joint a o, b => .joined o a b

def joint? : Pending → Option Joint
  | .sign _ => none
  | .joint _ o => some o

def isLoose (p : Pending) : Bool :=
  p.joint?.any Joint.isLoose

@[simp] theorem joint?_sign (s : Sign) : (sign s).joint? = none := rfl

@[simp] theorem joint?_joint (a : Tree) (o : Joint) : (joint a o).joint? = some o := rfl

@[simp] theorem isLoose_sign (s : Sign) : (sign s).isLoose = false := rfl

@[simp] theorem isLoose_joint (a : Tree) (o : Joint) : (joint a o).isLoose = o.isLoose := rfl

end Pending

/-- Applies the operations that bind at least so tightly, the innermost first. -/
def settle (least : Nat) : List Pending → Tree → List Pending × Tree
  | [], a => ([], a)
  | p :: ps, a => if least ≤ p.binds then settle least ps (p.apply a) else (p :: ps, a)

section Settle

variable {p k : Nat} {q : Pending} {ps : List Pending} {a : Tree}

@[simp]
theorem settle_nil : settle p [] a = ([], a) := rfl

theorem settle_tight (h : p ≤ q.binds) : settle p (q :: ps) a = settle p ps (q.apply a) := by
  simp [settle, h]

theorem settle_loose (h : q.binds < p) : settle p (q :: ps) a = (q :: ps, a) := by
  simp [settle, Nat.not_le.2 h]

theorem settle_settle (h : k ≤ p) :
    settle k (settle p ps a).1 (settle p ps a).2 = settle k ps a := by
  induction ps generalizing a with
  | nil => rfl
  | cons q ps ih =>
    by_cases hq : p ≤ q.binds
    · rw [settle_tight hq, settle_tight (by omega), ih]
    · rw [settle_loose (by omega)]

theorem Pending.binds_of_loose (h : q.isLoose = true) : q.binds < 3 := by
  cases q with
  | sign s => cases h
  | joint a o => simpa [isLoose, joint?, Joint.isLoose, binds] using h

end Settle

/-- What a bracket was opened for. -/
inductive Purpose where
  | group
  | call (f : Tree)
  | subscript (f : Tree)
  deriving DecidableEq

namespace Purpose

def bracket : Purpose → Bracket
  | .group => .round
  | .call _ => .round
  | .subscript _ => .square

def isSubscript : Purpose → Bool
  | .subscript _ => true
  | _ => false

/-- The operand that a pair of brackets makes of its content; `loose` tells a tuple or a comparison
from what binds tighter. -/
def operand (content : Tree) (loose : Bool) : Purpose → Tree
  | .group => if loose then .enclosed content else content
  | .call f => .call f content
  | .subscript f => .subscript f content

end Purpose

/-- The inside of a bracket that is open, or the line itself, and the operations that wait there. -/
structure Frame where
  purpose : Option Purpose
  pending : List Pending
  deriving DecidableEq

/-- What a token does: it goes on in the frame, opens a bracket in it or closes the frame. -/
inductive Move where
  | stay (operand : Option Tree) (pending : List Pending)
  | enter (purpose : Purpose)
  | leave (operand : Tree)
  deriving DecidableEq

namespace Frame

def opensSubscript (f : Frame) : Bool :=
  f.purpose.any Purpose.isSubscript

def awaits (f : Frame) (o : Joint) : Bool :=
  f.pending.head?.any fun p => p.joint? == some o

/-- Whether the frame may end, or a joint may come, where an operand is expected. -/
def mayEnd (f : Frame) : Bool :=
  f.awaits .comma || f.awaits .colon || f.pending.isEmpty && !f.opensSubscript

def maySkip (f : Frame) : Joint → Bool
  | .comma => f.awaits .colon
  | .colon => f.awaits .comma || f.awaits .colon || f.pending.isEmpty
  | _ => false

/-- A slice stands between square brackets and has two colons at most. -/
def admits (f : Frame) (o : Joint) : Bool :=
  o != .colon ||
    f.opensSubscript && f.pending.countP (fun p => p.joint? == some .colon) < 2

/-- The content of the frame, from the operand that was read last. -/
def content (f : Frame) (operand : Option Tree) : Tree :=
  (settle 0 f.pending (operand.getD .absent)).2

def close (f : Frame) (operand : Option Tree) (b : Bracket) : Option Move :=
  match f.purpose with
  | none => none
  | some p =>
    if p.bracket = b then
      some (.leave (p.operand (f.content operand) (f.pending.any Pending.isLoose || operand.isNone)))
    else none

def join (f : Frame) (a : Tree) (o : Joint) : Option Move :=
  if f.admits o then
    some (.stay none (.joint (settle o.applies f.pending a).2 o :: (settle o.applies f.pending a).1))
  else none

/-- A token behind an operand. -/
def proceed (callee : Tree → Bool) (f : Frame) (a : Tree) : Token → Option Move
  | .opening .round => if callee a then some (.enter (.call a)) else none
  | .opening .square => if callee a then some (.enter (.subscript a)) else none
  | .closing b => f.close (some a) b
  | t => (Joint.ofToken? t).bind (f.join a)

/-- A sign, or a joint in front of which an operand is left out. -/
def lead (f : Frame) (o : Joint) : Option Move :=
  match o.sign? with
  | some s => some (.stay none (.sign s :: f.pending))
  | none => if f.maySkip o then f.join .absent o else none

/-- A token where an operand is expected. -/
def expect (f : Frame) : Token → Option Move
  | .name w => if isPath w then some (.stay (some (.name w)) f.pending) else none
  | .number w => if isNumeral w then some (.stay (some (.numeral w)) f.pending) else none
  | .opening .round => some (.enter .group)
  | .closing b => if f.mayEnd then f.close none b else none
  | t => (Joint.ofToken? t).bind f.lead

def move (callee : Tree → Bool) (f : Frame) (operand : Option Tree) (t : Token) : Option Move :=
  match operand with
  | none => f.expect t
  | some a => f.proceed callee a t

end Frame

structure State where
  /-- the operand that was read last, unless an operation waits for one -/
  operand : Option Tree
  /-- the frames that are open, the innermost first -/
  frames : List Frame
  deriving DecidableEq

namespace State

def start : State :=
  ⟨none, [⟨none, []⟩]⟩

def follow (f : Frame) (fs : List Frame) : Move → State
  | .stay operand pending => ⟨operand, ⟨f.purpose, pending⟩ :: fs⟩
  | .enter purpose => ⟨none, ⟨some purpose, []⟩ :: f :: fs⟩
  | .leave operand => ⟨some operand, fs⟩

def step (callee : Tree → Bool) (s : State) (t : Token) : Option State :=
  match s.frames with
  | [] => none
  | f :: fs => (f.move callee s.operand t).map (follow f fs)

def run (callee : Tree → Bool) (s : State) : List Token → Option State
  | [] => some s
  | t :: ts => (s.step callee t).bind fun s' => run callee s' ts

/-- The tree at the end of a line, where a tuple may end as in parentheses. -/
def tree? (s : State) : Option Tree :=
  match s.frames with
  | [f] => if s.operand.isSome || f.awaits .comma then some (f.content s.operand) else none
  | _ => none

end State

/-- The tree that tokens say, if they are an expression; `callee` tells what may be called and
subscripted. -/
def read (callee : Tree → Bool) (ts : List Token) : Option Tree :=
  (State.start.run callee ts).bind State.tree?

/-- What a token can do in a frame, by what stands before it. -/
inductive Moves (callee : Tree → Bool) (f : Frame) : Option Tree → Token → Move → Prop where
  | name {w : List Char} : isPath w = true →
      Moves callee f none (.name w) (.stay (some (.name w)) f.pending)
  | numeral {w : List Char} : isNumeral w = true →
      Moves callee f none (.number w) (.stay (some (.numeral w)) f.pending)
  | group : Moves callee f none (.opening .round) (.enter .group)
  | call {a : Tree} : callee a = true →
      Moves callee f (some a) (.opening .round) (.enter (.call a))
  | subscript {a : Tree} : callee a = true →
      Moves callee f (some a) (.opening .square) (.enter (.subscript a))
  | close {x : Option Tree} {p : Purpose} : f.purpose = some p → (x = none → f.mayEnd = true) →
      Moves callee f x (.closing p.bracket)
        (.leave (p.operand (f.content x) (f.pending.any Pending.isLoose || x.isNone)))
  | sign {o : Joint} {s : Sign} : o.sign? = some s →
      Moves callee f none o.token (.stay none (.sign s :: f.pending))
  | skip {o : Joint} {m : Move} : o.sign? = none → f.maySkip o = true → f.join .absent o = some m →
      Moves callee f none o.token m
  | join {a : Tree} {o : Joint} {m : Move} : f.join a o = some m →
      Moves callee f (some a) o.token m

section Moves

variable {callee : Tree → Bool} {f : Frame} {x : Option Tree} {t : Token} {m : Move}

theorem Frame.close_iff {b : Bracket} : f.close x b = some m ↔ ∃ p, f.purpose = some p ∧
    p.bracket = b ∧
    m = .leave (p.operand (f.content x) (f.pending.any Pending.isLoose || x.isNone)) := by
  unfold Frame.close
  cases f.purpose with
  | none => simp
  | some p => simp [eq_comm]

theorem Frame.join_iff {a : Tree} {o : Joint} : f.join a o = some m ↔ f.admits o = true ∧
    m = .stay none (.joint (settle o.applies f.pending a).2 o ::
      (settle o.applies f.pending a).1) := by
  unfold Frame.join
  cases f.admits o with
  | false => simp
  | true => simp [eq_comm]

theorem Joint.bind_ofToken? {α : Type} {g : Joint → Option α} {a : α} :
    (ofToken? t).bind g = some a ↔ ∃ o : Joint, o.token = t ∧ g o = some a := by
  constructor
  · intro h
    obtain ⟨o, ho, hg⟩ := Option.bind_eq_some_iff.1 h
    exact ⟨o, token_of_ofToken? ho, hg⟩
  · rintro ⟨o, rfl, hg⟩
    simpa using hg

@[simp]
theorem Frame.expect_joint (o : Joint) : f.expect o.token = f.lead o := by
  cases o <;> rfl

@[simp]
theorem Frame.proceed_joint (a : Tree) (o : Joint) : f.proceed callee a o.token = f.join a o := by
  cases o <;> rfl

theorem Frame.moves_of_lead {o : Joint} (h : f.lead o = some m) : Moves callee f none o.token m := by
  unfold lead at h
  split at h
  · cases h
    exact .sign ‹_›
  · split at h
    · exact .skip ‹_› ‹_› h
    · cases h

theorem Frame.moves_of_expect (h : f.expect t = some m) : Moves callee f none t m := by
  unfold expect at h
  split at h
  · split at h
    · cases h
      exact .name ‹_›
    · cases h
  · split at h
    · cases h
      exact .numeral ‹_›
    · cases h
  · cases h
    exact .group
  · split at h
    · rename_i he
      obtain ⟨p, hp, rfl, rfl⟩ := close_iff.1 h
      exact .close hp fun _ => he
    · cases h
  · obtain ⟨o, rfl, ho⟩ := Joint.bind_ofToken?.1 h
    exact moves_of_lead ho

theorem Frame.moves_of_proceed {a : Tree} (h : f.proceed callee a t = some m) :
    Moves callee f (some a) t m := by
  unfold proceed at h
  split at h
  · split at h
    · cases h
      exact .call ‹_›
    · cases h
  · split at h
    · cases h
      exact .subscript ‹_›
    · cases h
  · obtain ⟨p, hp, rfl, rfl⟩ := close_iff.1 h
    exact .close hp fun hx => nomatch hx
  · obtain ⟨o, rfl, ho⟩ := Joint.bind_ofToken?.1 h
    exact .join ho

/-- The reader makes the moves that there are, and no other. -/
theorem Frame.move_iff : f.move callee x t = some m ↔ Moves callee f x t m := by
  constructor
  · intro h
    cases x with
    | none => exact moves_of_expect h
    | some a => exact moves_of_proceed h
  · intro h
    cases h with
    | name hw => simp [move, expect, hw]
    | numeral hw => simp [move, expect, hw]
    | group => rfl
    | call ha => simp [move, proceed, ha]
    | subscript ha => simp [move, proceed, ha]
    | @close x p hp hx =>
      cases x with
      | none => simp [move, expect, hx rfl, close_iff, hp]
      | some a => simp [move, proceed, close_iff, hp]
    | sign ho => simp [move, lead, ho]
    | skip ho hs hj => simp [move, lead, ho, hs, hj]
    | join hj => simp [move, hj]

end Moves

/-- A sign binds looser than a power on its right and tighter than a product. -/
example :
    read Tree.mentionsName
      [.operator ['-'], .name ['a'], .operator ['*', '*'], .number ['2'], .operator ['*'],
        .name ['b']] =
      some (.joined .times (.signed .minus (.joined .power (.name ['a']) (.numeral ['2'])))
        (.name ['b'])) := by
  decide +kernel

/-- One line of code that is the expression. -/
def Reads (code : String) (a : Tree) : Prop :=
  '\n' ∉ code.toList ∧ read Tree.mentionsName (lex code.toList) = some a

end Python

end Kinetics

import Kinetics.Proofs.Decimal.Numeral
import Kinetics.Proofs.Grid.Select
import Kinetics.Proofs.Python.Spelling

/-!
# Kinetics.Proofs.Python.Subscript

Names with positions behind them, as expressions: how they are written, what tree they have, and
what part of an array they stand for.
-/

namespace Kinetics

namespace Python

open Code Text

section Meaning

variable {α : Type}

/-- The entry of an index along one axis: a position, or a colon for the whole axis. -/
def Tree.item? : Tree → Option (Option Nat)
  | .numeral w => if w.all Char.isDigit then some (some (digitsValue w)) else none
  | .joined .colon .absent .absent => some none
  | _ => none

/-- The entries of an index. -/
def Tree.entries? : Tree → Option (List (Option Nat))
  | .joined .comma a b => a.entries?.bind fun is => b.item?.map fun i => is ++ [i]
  | a => a.item?.map fun i => [i]

/-- The array that a name or a subscript of a name stands for. -/
def Tree.grid? (env : List Char → Option (Grid α)) : Tree → Option (Grid α)
  | .name w => env w
  | .subscript f a => (f.grid? env).bind fun g => a.entries?.bind fun is => g.select is
  | _ => none

end Meaning

section Trees

def entryTree : Option Nat → Tree
  | some i => .numeral (natDigits i)
  | none => .joined .colon .absent .absent

/-- The tree of a list of entries, of which there is a first one. -/
def entriesTree (i : Option Nat) (is : List (Option Nat)) : Tree :=
  is.foldl (fun a i => .joined .comma a (entryTree i)) (entryTree i)

def accessTree (name : List Char) : List (Option Nat) → Tree
  | [] => .name name
  | i :: is => .subscript (.name name) (entriesTree i is)

def entryTokens : Option Nat → List Token
  | some i => [.number (natDigits i)]
  | none => [.colon]

def entriesTokens (i : Option Nat) (is : List (Option Nat)) : List Token :=
  entryTokens i ++ is.flatMap fun i => .comma :: entryTokens i

def accessTokens (name : List Char) : List (Option Nat) → List Token
  | [] => [.name name]
  | i :: is => .name name :: inBrackets .square (entriesTokens i is)

variable {name : List Char} {i : Option Nat} {is : List (Option Nat)} {ts : List Token} {a : Tree}

theorem isNumeral_natDigits (n : Nat) : isNumeral (natDigits n) = true := by
  have hdigit := Decimal.isDigit_natDigits n
  have hne := Decimal.natDigits_ne_nil n
  have hall : (natDigits n).all Char.isDigit = true := List.all_eq_true.2 hdigit
  have hexp : (natDigits n).dropWhile (!marksExponent ·) = [] := by
    rw [List.dropWhile_eq_nil_iff]
    intro c hc
    have := hdigit c hc
    simp only [marksExponent, Bool.not_eq_true', Bool.or_eq_false_iff, beq_eq_false_iff_ne]
    constructor <;> rintro rfl <;> cases this
  have hdec : isDecimal (natDigits n) = true := by
    have hdrop : (natDigits n).dropWhile Char.isDigit = [] := List.dropWhile_eq_nil_iff.2 hdigit
    simp [isDecimal, hdrop, hne]
  have hnought : ((natDigits n).head? == some '0' && (natDigits n).any (· != '0')) = false := by
    by_cases hn : n = 0
    · subst hn
      rfl
    · simp [Decimal.head_natDigits hn]
  rw [isNumeral, hexp]
  simp only [hdec, hall, Bool.true_and, hnought, Bool.not_false]

theorem parses_entry (i : Option Nat) :
    Parses Tree.isCallee (.item true) (entryTokens i) (entryTree i) := by
  cases i with
  | none => exact .slice .missing .missing
  | some i =>
    have h : Parses Tree.isCallee (.operand 6) (entryTokens (some i)) (entryTree (some i)) :=
      .primary (.numeral (isNumeral_natDigits i))
    exact .item true (h.looser (by decide))

theorem parses_entries (i : Option Nat) (is : List (Option Nat)) :
    Parses Tree.isCallee (.content true) (entriesTokens i is) (entriesTree i is) := by
  refine .content ?_
  rw [entriesTokens, entriesTree]
  have hfirst : Parses Tree.isCallee (.items true) (entryTokens i) (entryTree i) :=
    .first (parses_entry i)
  generalize entryTokens i = ts at hfirst ⊢
  generalize entryTree i = a at hfirst ⊢
  induction is generalizing ts a with
  | nil => simpa using hfirst
  | cons j js ih => simpa [Joint.token] using ih _ _ (.next hfirst (parses_entry j))

theorem parses_access (hn : isPath name = true) (is : List (Option Nat)) :
    Parses Tree.isCallee (.content false) (accessTokens name is) (accessTree name is) := by
  have hprimary : Parses Tree.isCallee .primary (accessTokens name is) (accessTree name is) := by
    cases is with
    | nil => exact .name hn
    | cons i is => exact .subscript (.name hn) rfl (parses_entries i is)
  have hoperand : Parses Tree.isCallee (.operand 6) (accessTokens name is) (accessTree name is) :=
    .primary hprimary
  exact .content (.first (.item false (hoperand.looser (by decide))))

theorem item?_entryTree (i : Option Nat) : (entryTree i).item? = some i := by
  cases i with
  | none => rfl
  | some i =>
    have hall : (natDigits i).all Char.isDigit = true :=
      List.all_eq_true.2 (Decimal.isDigit_natDigits i)
    simp [entryTree, Tree.item?, hall, Decimal.digitsValue_natDigits]

/-- The entries of an index can be read off its tree. -/
theorem entries?_entriesTree (i : Option Nat) (is : List (Option Nat)) :
    (entriesTree i is).entries? = some (i :: is) := by
  have hfirst : (entryTree i).entries? = some [i] := by
    have h := item?_entryTree i
    cases i with
    | none => rfl
    | some i => exact congrArg (Option.map fun i => [i]) h
  rw [entriesTree, ← List.singleton_append]
  generalize [i] = js at hfirst ⊢
  generalize entryTree i = a at hfirst ⊢
  induction is generalizing js a with
  | nil => simpa using hfirst
  | cons k ks ih =>
    have hnext : (Tree.joined .comma a (entryTree k)).entries? = some (js ++ [k]) := by
      rw [Tree.entries?, hfirst, item?_entryTree]
      rfl
    simpa using ih _ _ hnext

theorem grid?_accessTree {α : Type} (env : List Char → Option (Grid α)) (name : List Char)
    (is : List (Option Nat)) :
    (accessTree name is).grid? env = (env name).bind fun g => g.select is := by
  cases is with
  | nil =>
    rw [accessTree, Tree.grid?]
    cases env name with
    | none => rfl
    | some g => rfl
  | cons i is =>
    rw [accessTree, Tree.grid?, entries?_entriesTree]
    rfl

end Trees

end Python

end Kinetics

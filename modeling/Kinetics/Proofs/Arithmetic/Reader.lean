import Kinetics.Code.Lexer
import Kinetics.Proofs.Arithmetic.Grammar

/-!
# Kinetics.Proofs.Arithmetic.Reader

A reader for arithmetic in generated code: `scan` cuts a line into tokens, `readTokens` builds the
tree by recursive descent, one function for each level of precedence. Fuel bounds the depth of
calls; five steps for each token are enough.

`readTokens_of_parses`: the reader finds the tree of every line that the grammar has, so what the
grammar says about a line is what reading it gives, and a line has one tree.
-/

namespace Kinetics

namespace Arithmetic

open Code Text

/-- The operator, bracket or comma that starts with a character, and what follows it. -/
def scanMark : Char → List Char → Option (Token × List Char)
  | '(', r => some (.opening .round, r)
  | ')', r => some (.closing .round, r)
  | ',', r => some (.comma, r)
  | '+', r => some (Sign.plus.token, r)
  | '-', r => some (Sign.minus.token, r)
  | '/', r => some (Ratio.per.token, r)
  | '*', '*' :: r => some (powerToken, r)
  | '*', r => some (Ratio.times.token, r)
  | _, _ => none

/-- The token at the front, given by its first character, and what follows it. -/
def scanToken (c : Char) (r : List Char) : Option (Token × List Char) :=
  if c.isDigit || (c = '.' && startsWithDigit r) then
    some (.number (c :: r.takeWhile continuesNumber), r.dropWhile continuesNumber)
  else if startsName c then
    some (.name (c :: r.takeWhile continuesName), r.dropWhile continuesName)
  else scanMark c r

theorem scanToken_length {c : Char} {r s : List Char} {t : Token}
    (h : scanToken c r = some (t, s)) : s.length ≤ r.length := by
  unfold scanToken at h
  split at h
  · cases h
    exact (List.dropWhile_suffix _).length_le
  · split at h
    · cases h
      exact (List.dropWhile_suffix _).length_le
    · unfold scanMark at h
      split at h <;> cases h <;> simp

def scan : List Char → Option (List Token)
  | [] => some []
  | c :: r =>
    if c = ' ' then scan r
    else
      match _h : scanToken c r with
      | none => none
      | some (t, s) => (scan s).map (t :: ·)
termination_by cs => cs.length
decreasing_by
  · simp
  · exact Nat.lt_succ_of_le (scanToken_length _h)

def Sign.ofToken? : Token → Option Sign
  | .operator ['+'] => some .plus
  | .operator ['-'] => some .minus
  | _ => none

def Ratio.ofToken? : Token → Option Ratio
  | .operator ['*'] => some .times
  | .operator ['/'] => some .per
  | _ => none

def Call.ofWord? (s : List Char) : Option Call :=
  [Call.exp, Call.sum, Call.product].find? fun f => f.word == s

def takeOperation {α : Type} (operation : Token → Option α) : List Token → Option (α × List Token)
  | [] => none
  | t :: ts => (operation t).map fun o => (o, ts)

mutual

/-- A name, a numeral, a call, or a sum in brackets. -/
def readAtom : Nat → List Token → Option (Tree × List Token)
  | n + 1, .name s :: .opening .round :: ts =>
    match readSum n ts with
    | some (a, .closing .round :: us) => (Call.ofWord? s).map fun f => (.call f a, us)
    | some (a, .comma :: us) =>
      match readSum n us with
      | some (b, .closing .round :: vs) =>
        if s = maximumWord then some (.maximum a b, vs) else none
      | _ => none
    | _ => none
  | _ + 1, .name s :: ts => if isName s then some (.name s, ts) else none
  | _ + 1, .number s :: ts => (Numeral.ofText? s).map fun k => (.numeral k, ts)
  | n + 1, .opening .round :: ts =>
    match readSum n ts with
    | some (a, .closing .round :: us) => some (a, us)
    | _ => none
  | _, _ => none

/-- An atom, perhaps raised to a factor, or a signed factor. -/
def readFactor : Nat → List Token → Option (Tree × List Token)
  | n + 1, .operator ['-'] :: ts => (readFactor n ts).map fun p => (.negative p.1, p.2)
  | n + 1, ts =>
    match readAtom n ts with
    | some (a, .operator ['*', '*'] :: us) =>
      (readFactor n us).map fun p => (.power a p.1, p.2)
    | p => p
  | 0, _ => none

/-- Factors, multiplied and divided from the left. -/
def readTerm : Nat → List Token → Option (Tree × List Token)
  | n + 1, ts =>
    match readFactor n ts with
    | some (a, us) => readRatios n a us
    | none => none
  | 0, _ => none

def readRatios : Nat → Tree → List Token → Option (Tree × List Token)
  | n + 1, a, ts =>
    match takeOperation Ratio.ofToken? ts with
    | some (o, us) =>
      match readFactor n us with
      | some (b, vs) => readRatios n (.multiplicative o a b) vs
      | none => none
    | none => some (a, ts)
  | 0, _, _ => none

/-- Terms, added and subtracted from the left. -/
def readSum : Nat → List Token → Option (Tree × List Token)
  | n + 1, ts =>
    match readTerm n ts with
    | some (a, us) => readAddends n a us
    | none => none
  | 0, _ => none

def readAddends : Nat → Tree → List Token → Option (Tree × List Token)
  | n + 1, a, ts =>
    match takeOperation Sign.ofToken? ts with
    | some (o, us) =>
      match readTerm n us with
      | some (b, vs) => readAddends n (.additive o a b) vs
      | none => none
    | none => some (a, ts)
  | 0, _, _ => none

end

def readTokens (ts : List Token) : Option Tree :=
  match readSum (5 * ts.length + 5) ts with
  | some (a, []) => some a
  | _ => none

def read (line : String) : Option Tree :=
  (scan line.toList).bind readTokens

/-- Whether a token would go on with what is read at a level. -/
def Level.goesOn : Level → Token → Bool
  | .atom, t => t == .opening .round
  | .factor, t => t == .opening .round || t == powerToken
  | .term, t => t == .opening .round || t == powerToken || (Ratio.ofToken? t).isSome
  | .sum, t =>
    t == .opening .round || t == powerToken || (Ratio.ofToken? t).isSome ||
      (Sign.ofToken? t).isSome

/-- What is read at a level ends in front of the rest. -/
def Stops (l : Level) (rest : List Token) : Prop :=
  ∀ t, rest.head? = some t → l.goesOn t = false

theorem Stops.nil (l : Level) : Stops l [] :=
  fun _ h => nomatch h

theorem Stops.cons {l : Level} {t : Token} {rest : List Token} (h : l.goesOn t = false) :
    Stops l (t :: rest) := by
  intro u hu
  cases hu
  exact h

theorem Stops.of_le {l m : Level} {rest : List Token} (h : Stops l rest)
    (hm : ∀ t, m.goesOn t = true → l.goesOn t = true) : Stops m rest := by
  intro t ht
  cases hg : m.goesOn t with
  | false => rfl
  | true => exact absurd (h t ht) (by simp [hm t hg])

theorem readRatios_stop {n : Nat} {a : Tree} {rest : List Token} (h : Stops .term rest) :
    readRatios (n + 1) a rest = some (a, rest) := by
  cases rest with
  | nil => simp [readRatios, takeOperation]
  | cons t rest =>
    have ht := h t rfl
    simp only [Level.goesOn, Bool.or_eq_false_iff] at ht
    have ho : Ratio.ofToken? t = none := by simpa using ht.2
    simp [readRatios, takeOperation, ho]

theorem readAddends_stop {n : Nat} {a : Tree} {rest : List Token} (h : Stops .sum rest) :
    readAddends (n + 1) a rest = some (a, rest) := by
  cases rest with
  | nil => simp [readAddends, takeOperation]
  | cons t rest =>
    have ht := h t rfl
    simp only [Level.goesOn, Bool.or_eq_false_iff] at ht
    have ho : Sign.ofToken? t = none := by simpa using ht.2
    simp [readAddends, takeOperation, ho]

/-- Reading at a level takes the tokens of a tree and stops behind them. At the levels that group
from the left, it goes on from there with the tree in hand. -/
def Reads : Level → List Token → Tree → Prop
  | .atom, ts, a => ∀ rest, Stops .atom rest → ∀ n, 5 * ts.length ≤ n →
      readAtom n (ts ++ rest) = some (a, rest)
  | .factor, ts, a => ∀ rest, Stops .factor rest → ∀ n, 5 * ts.length + 1 ≤ n →
      readFactor n (ts ++ rest) = some (a, rest)
  | .term, ts, a => ∀ rest, Stops .factor rest → ∀ r k,
      (∀ n, k ≤ n → readRatios n a rest = some r) → ∀ n, k + 5 * ts.length + 2 ≤ n →
        readTerm n (ts ++ rest) = some r
  | .sum, ts, a => ∀ rest, Stops .term rest → ∀ r k,
      (∀ n, k ≤ n → readAddends n a rest = some r) → ∀ n, k + 5 * ts.length + 4 ≤ n →
        readSum n (ts ++ rest) = some r

section Reads

variable {l : Level} {ts us rest : List Token} {a b : Tree}

theorem Reads.wholeTerm (h : Reads .term ts a) (hs : Stops .term rest) {n : Nat}
    (hn : 5 * ts.length + 3 ≤ n) : readTerm n (ts ++ rest) = some (a, rest) := by
  refine h rest (hs.of_le ?_) _ 1 (fun n hn => ?_) n (by omega)
  · intro t ht
    simp_all [Level.goesOn]
  · obtain ⟨n, rfl⟩ : ∃ m, n = m + 1 := ⟨n - 1, by omega⟩
    exact readRatios_stop hs

theorem Reads.wholeSum (h : Reads .sum ts a) (hs : Stops .sum rest) {n : Nat}
    (hn : 5 * ts.length + 5 ≤ n) : readSum n (ts ++ rest) = some (a, rest) := by
  refine h rest (hs.of_le ?_) _ 1 (fun n hn => ?_) n (by omega)
  · intro t ht
    simp_all [Level.goesOn]
  · obtain ⟨n, rfl⟩ : ∃ m, n = m + 1 := ⟨n - 1, by omega⟩
    exact readAddends_stop hs

theorem ofWord?_word (f : Call) : Call.ofWord? f.word = some f := by
  cases f <;> decide

theorem Parses.head_atom (h : Parses .atom ts a) : ∀ s r, ts ≠ .operator s :: r := by
  intro s r hts
  subst hts
  cases h

theorem readFactor_atom {n : Nat} (hm : ∀ r, ts ≠ .operator ['-'] :: r)
    (h : readAtom n ts = some (a, rest)) (hs : Stops .factor rest) :
    readFactor (n + 1) ts = some (a, rest) := by
  rw [readFactor]
  · rw [h]
    split
    · rename_i us he
      cases he
      exact absurd (hs _ rfl) (by decide)
    · rfl
  · intro r hr
    exact hm r hr

/-- The reader finds what the grammar says. -/
theorem reads_of_parses (h : Parses l ts a) : Reads l ts a := by
  induction h with
  | @name s hs =>
    intro rest hstop n hn
    obtain ⟨n, rfl⟩ : ∃ m, n = m + 1 := ⟨n - 1, by simp at hn; omega⟩
    rw [List.singleton_append, readAtom, if_pos hs]
    rintro us rfl
    exact absurd (hstop _ rfl) (by decide)
  | @numeral s k hk =>
    intro rest hstop n hn
    obtain ⟨n, rfl⟩ : ∃ m, n = m + 1 := ⟨n - 1, by simp at hn; omega⟩
    simp [readAtom, hk]
  | @group ts a _ ih =>
    intro rest hstop n hn
    obtain ⟨n, rfl⟩ : ∃ m, n = m + 1 := ⟨n - 1, by simp [inBrackets] at hn; omega⟩
    simp only [inBrackets, List.length_cons, List.length_append] at hn
    have hr : readSum n (ts ++ .closing .round :: rest) = some (a, .closing .round :: rest) :=
      ih.wholeSum (.cons rfl) (by simp at hn; omega)
    simp [inBrackets, readAtom, hr]
  | @call ts a f _ ih =>
    intro rest hstop n hn
    obtain ⟨n, rfl⟩ : ∃ m, n = m + 1 := ⟨n - 1, by simp [inBrackets] at hn; omega⟩
    simp only [inBrackets, List.length_cons, List.length_append] at hn
    have hr : readSum n (ts ++ .closing .round :: rest) = some (a, .closing .round :: rest) :=
      ih.wholeSum (.cons rfl) (by simp at hn; omega)
    simp [inBrackets, readAtom, hr, ofWord?_word]
  | @maximum ts us a b _ _ iha ihb =>
    intro rest hstop n hn
    obtain ⟨n, rfl⟩ : ∃ m, n = m + 1 := ⟨n - 1, by simp [inBrackets] at hn; omega⟩
    simp only [inBrackets, List.length_cons, List.length_append] at hn
    have ha : readSum n (ts ++ .comma :: (us ++ .closing .round :: rest)) =
        some (a, .comma :: (us ++ .closing .round :: rest)) :=
      iha.wholeSum (.cons rfl) (by simp at hn; omega)
    have hb : readSum n (us ++ .closing .round :: rest) = some (b, .closing .round :: rest) :=
      ihb.wholeSum (.cons rfl) (by simp at hn; omega)
    simp [inBrackets, readAtom, ha, hb]
  | @atom ts a h ih =>
    intro rest hstop n hn
    obtain ⟨n, rfl⟩ : ∃ m, n = m + 1 := ⟨n - 1, by omega⟩
    have hr := ih rest (hstop.of_le (fun t ht => by simp_all [Level.goesOn])) n (by omega)
    refine readFactor_atom (fun r hr => ?_) hr hstop
    cases ts with
    | nil => exact absurd h (by intro h; cases h)
    | cons t ts =>
      simp only [List.cons_append, List.cons.injEq] at hr
      exact h.head_atom _ _ (by rw [hr.1])
  | @power ts us a b ha hb iha ihb =>
    intro rest hstop n hn
    obtain ⟨n, rfl⟩ : ∃ m, n = m + 1 := ⟨n - 1, by omega⟩
    simp only [List.length_append, List.length_cons] at hn
    have hra : readAtom n (ts ++ powerToken :: (us ++ rest)) = some (a, powerToken :: (us ++ rest)) :=
      iha _ (.cons rfl) n (by omega)
    have hrb := ihb rest hstop n (by omega)
    rw [List.append_assoc, List.cons_append, readFactor]
    · rw [hra]
      simp [powerToken, hrb]
    · intro r hr
      cases ts with
      | nil => exact absurd ha (by intro h; cases h)
      | cons t ts =>
        simp only [List.cons_append, List.cons.injEq] at hr
        exact ha.head_atom _ _ (by rw [hr.1])
  | @negative ts a _ ih =>
    intro rest hstop n hn
    obtain ⟨n, rfl⟩ : ∃ m, n = m + 1 := ⟨n - 1, by omega⟩
    simp only [List.length_cons] at hn
    simp [Sign.token, readFactor, ih rest hstop n (by omega)]
  | @factor ts a _ ih =>
    intro rest hstop r k hk n hn
    obtain ⟨n, rfl⟩ : ∃ m, n = m + 1 := ⟨n - 1, by omega⟩
    simp only [readTerm, ih rest hstop n (by omega)]
    exact hk n (by omega)
  | @multiplicative ts us a b o _ _ iha ihb =>
    intro rest hstop r k hk n hn
    simp only [List.length_append, List.length_cons] at hn
    rw [List.append_assoc, List.cons_append]
    refine iha _ (.cons (by cases o <;> rfl)) r (k + 5 * us.length + 2) (fun n hn => ?_) n
      (by omega)
    obtain ⟨n, rfl⟩ : ∃ m, n = m + 1 := ⟨n - 1, by omega⟩
    have ho : Ratio.ofToken? o.token = some o := by cases o <;> rfl
    simp only [readRatios, takeOperation, ho, Option.map_some, ihb rest hstop n (by omega)]
    exact hk n (by omega)
  | @term ts a _ ih =>
    intro rest hstop r k hk n hn
    obtain ⟨n, rfl⟩ : ∃ m, n = m + 1 := ⟨n - 1, by omega⟩
    simp only [readSum, ih.wholeTerm hstop (n := n) (by omega)]
    exact hk n (by omega)
  | @additive ts us a b o _ _ iha ihb =>
    intro rest hstop r k hk n hn
    simp only [List.length_append, List.length_cons] at hn
    rw [List.append_assoc, List.cons_append]
    refine iha _ (.cons (by cases o <;> rfl)) r (k + 5 * us.length + 4) (fun n hn => ?_) n
      (by omega)
    obtain ⟨n, rfl⟩ : ∃ m, n = m + 1 := ⟨n - 1, by omega⟩
    have ho : Sign.ofToken? o.token = some o := by cases o <;> rfl
    simp only [readAddends, takeOperation, ho, Option.map_some,
      ihb.wholeTerm hstop (n := n) (by omega)]
    exact hk n (by omega)

end Reads

theorem readTokens_of_parses {ts : List Token} {a : Tree} (h : Parses .sum ts a) :
    readTokens ts = some a := by
  have hr : readSum (5 * ts.length + 5) (ts ++ []) = some (a, []) :=
    (reads_of_parses h).wholeSum (.nil _) (Nat.le_refl _)
  rw [List.append_nil] at hr
  rw [readTokens, hr]

end Arithmetic

end Kinetics

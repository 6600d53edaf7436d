import Kinetics.Proofs.Code.Bracket
import Mathlib.Logic.Relation

/-!
# Kinetics.Proofs.Code.Regrouping

What the passes over redundant parentheses do. `Unwraps` takes one pair away that groups a term
with nothing loose in it. Both passes are repetitions of that step (`collapse_unwraps`,
`strip_unwraps`): the outer one of two pairs stands around the inner one, which is such a term.
-/

namespace Kinetics

namespace Code

open Relation (ReflTransGen)

theorem hasLoose_append {n : Nat} {ts us : List Token} (h : Covered n ts) :
    hasLoose n (ts ++ us) = (hasLoose n ts || hasLoose (n + depth ts).toNat us) := by
  induction ts generalizing n with
  | nil => simp [hasLoose_nil]
  | cons t ts ih =>
    have hc := h.tail
    have h1 := h.head
    cases t with
    | opening b =>
      have e : ((n + 1 : Nat) : Int) + depth ts = n + (1 + depth ts) := by omega
      simp only [List.cons_append, hasLoose, depth_cons, Token.turn]
      rw [ih (by simpa [Token.turn] using hc), e]
    | closing b =>
      simp only [Token.turn] at h1
      have e : ((n - 1 : Nat) : Int) = n + -1 := by omega
      have e' : ((n - 1 : Nat) : Int) + depth ts = n + (-1 + depth ts) := by omega
      simp only [List.cons_append, hasLoose, depth_cons, Token.turn]
      rw [ih (by simpa [Token.turn, e] using hc), e']
    | _ =>
      simp only [Token.turn, Int.add_zero] at hc
      simp [hasLoose, depth_cons, Token.turn, ih hc, Bool.or_assoc]

theorem hasLoose_tail {n : Nat} {t : Token} {ts : List Token} (h : hasLoose n (t :: ts) = false) :
    hasLoose (n + t.turn).toNat ts = false := by
  cases t with
  | opening b => exact h
  | closing b =>
    have e : ((n : Int) + Token.turn (.closing b)).toNat = n - 1 := by
      simp only [Token.turn]
      omega
    rw [e]
    exact h
  | _ => simp_all [hasLoose, Token.turn]

/-- An operator behind a balanced list stands outside all brackets. -/
theorem hasLoose_operator {ts us : List Token} (s : List Char) (h : Balanced ts) :
    hasLoose 0 (ts ++ .operator s :: us) = true := by
  rw [hasLoose_append (n := 0) (by simpa using h.covered)]
  simp [h.closed, hasLoose]

/-- No token that takes a bracket stands last, so a bracket behind the list groups. -/
def Groups (before : List Token) : Prop :=
  ∀ t, before.getLast? = some t → t.takesBracket = false

theorem Groups.tail {t : Token} {before : List Token} (h : Groups (t :: before)) :
    Groups before := by
  intro u hu
  cases before with
  | nil => cases hu
  | cons x before => exact h u (by rwa [List.getLast?_cons_cons])

theorem Groups.right {xs before : List Token} (h : Groups (xs ++ before)) : Groups before := by
  induction xs with
  | nil => exact h
  | cons x xs ih => exact ih h.tail

theorem groups_of_opensGroup {before : List Token} {t : Token}
    (h : opensGroup before.getLast? t = true) : t = .opening .round ∧ Groups before := by
  simp only [opensGroup, Bool.and_eq_true, beq_iff_eq, Bool.not_eq_true',
    Option.any_eq_false] at h
  refine ⟨h.1, fun u hu => ?_⟩
  simpa using h.2 u hu

theorem hasLoose_inner {n : Nat} {ts : List Token} (h : Covered n ts) :
    hasLoose (n + 1) ts = false := by
  induction ts generalizing n with
  | nil => rfl
  | cons t ts ih =>
    have hc := h.tail
    have h1 := h.head
    cases t with
    | opening b => exact ih (by simpa [Token.turn] using hc)
    | closing b =>
      simp only [Token.turn] at h1 hc
      obtain ⟨k, rfl⟩ : ∃ k, n = k + 1 := ⟨n - 1, by omega⟩
      have e : ((k + 1 : Nat) : Int) + -1 = k := by omega
      exact ih (by rwa [e] at hc)
    | _ => simpa [hasLoose, Token.turn] using ih (by simpa [Token.turn] using hc)

theorem hasLoose_wrap {ts : List Token} (b c : Bracket) (h : Balanced ts) :
    hasLoose 0 (Token.opening b :: (ts ++ [Token.closing c])) = false := by
  have hc : Covered (0 : Nat) ts := by simpa using h.covered
  have h1 : Covered (1 : Nat) ts := h.covered.mono (by omega)
  simp only [hasLoose, Nat.zero_add]
  rw [hasLoose_append h1, hasLoose_inner hc]
  simp [hasLoose]

section Step

variable {before : Option Token} {t : Token} {ts us : List Token}

/-- A pass looks at the token before only for whether it takes a bracket. -/
theorem opensGroup_congr {b c : Option Token} (h : b.any Token.takesBracket = c.any Token.takesBracket)
    (t : Token) : opensGroup b t = opensGroup c t := by
  rw [opensGroup, opensGroup, h]

theorem collapse_congr {b c : Option Token}
    (h : b.any Token.takesBracket = c.any Token.takesBracket) : collapse b ts = collapse c ts := by
  cases ts with
  | nil => rw [collapse_nil, collapse_nil]
  | cons t r => unfold collapse; rw [opensGroup_congr h]

theorem stripFirst_congr {b c : Option Token}
    (h : b.any Token.takesBracket = c.any Token.takesBracket) : stripFirst b ts = stripFirst c ts := by
  cases ts with
  | nil => rfl
  | cons t r => rw [stripFirst, stripFirst, opensGroup_congr h]

theorem eq_opening {b : Option Token} (h : opensGroup b t = true) : t = .opening .round := by
  simp only [opensGroup, Bool.and_eq_true, beq_iff_eq] at h
  exact h.1

theorem collapse_pass (h : opensGroup before t = true → ts.head? ≠ some (.opening .round)) :
    collapse before (t :: ts) = t :: collapse (some t) ts := by
  rw [collapse.eq_3]
  rintro ts hg rfl
  exact absurd rfl (h hg)

theorem collapse_single (h : innerOfDouble ts = none) :
    collapse before (t :: .opening .round :: ts) = t :: collapse (some t) (.opening .round :: ts) := by
  by_cases hg : opensGroup before t = true
  · rw [collapse.eq_2 _ _ _ hg]
    split
    · simp_all
    · rfl
  · exact collapse_pass fun hg' => absurd hg' hg

theorem collapse_double (hg : opensGroup before t = true) (h : innerOfDouble ts = some us) :
    collapse before (t :: .opening .round :: ts) =
      .opening .round :: collapse (some (.opening .round)) us := by
  rw [collapse.eq_2 _ _ _ hg]
  split
  · simp_all
  · simp_all

theorem stripFirst_pass (h : ∀ inside c rest, opensGroup before t = true →
      splitGroup 0 ts = some (inside, c, rest) → isTight inside = false) :
    stripFirst before (t :: ts) = (stripFirst (some t) ts).map (t :: ·) := by
  rw [stripFirst]
  split
  · rename_i vs hv
    split at hv
    · rename_i hg
      split at hv
      · rename_i inside c rest hs
        rw [h inside c rest hg hs] at hv
        cases hv
      · cases hv
    · cases hv
  · cases stripFirst (some t) ts <;> rfl

theorem stripFirst_group {inside rest : List Token} {c : Token} (hg : opensGroup before t = true)
    (hs : splitGroup 0 ts = some (inside, c, rest)) (ht : isTight inside = true) :
    stripFirst before (t :: ts) = some (inside ++ rest) := by
  simp only [stripFirst, hg, hs, ht, if_true]

theorem startsKeptCall_name (w : List Char) (ts : List Token) : startsKeptCall (.name w :: ts) =
    (decide (ts.head? = some (.opening .round)) && keptCalls.contains w) := by
  cases ts with
  | nil => rfl
  | cons t ts => cases t <;> first | rfl | (rename_i b; cases b <;> simp [startsKeptCall])

end Step

theorem innerOfDouble_eq {ts us : List Token} (h : innerOfDouble ts = some us) :
    ∃ (inside : List Token) (b c : Bracket) (rest : List Token),
      Balanced inside ∧ ts = inside ++ .closing b :: .closing c :: rest ∧
        us = inside ++ .closing b :: rest := by
  unfold innerOfDouble at h
  split at h
  · rename_i inside closer c rest hs
    cases h
    obtain ⟨hi, b, rfl⟩ := splitGroup_balanced hs
    exact ⟨inside, b, c, rest, hi, (splitGroup_append hs).symm, rfl⟩
  · cases h

/-- A pair of parentheses is taken away that groups a term without loose operators. -/
inductive Unwraps : List Token → List Token → Prop where
  | pair {before inside after : List Token} (c : Bracket) : Groups before → Balanced inside →
      hasLoose 0 inside = false → inside ≠ [] →
      Unwraps (before ++ .opening .round :: (inside ++ .closing c :: after))
        (before ++ (inside ++ after))

theorem collapse_unwraps (before us : List Token) :
    ReflTransGen Unwraps (before ++ us) (before ++ collapse before.getLast? us) := by
  generalize hb : before.getLast? = last
  fun_induction collapse last us generalizing before with
  | case1 => exact .refl
  | case2 last t ts hg us hd ih =>
    subst hb
    obtain ⟨rfl, hgroups⟩ := groups_of_opensGroup hg
    obtain ⟨inside, b, c, rest, hi, rfl, rfl⟩ := innerOfDouble_eq hd
    have hu : Unwraps (before ++ .opening .round ::
          ((.opening .round :: (inside ++ [Token.closing b])) ++ .closing c :: rest))
        (before ++ ((.opening .round :: (inside ++ [Token.closing b])) ++ rest)) :=
      .pair c hgroups (hi.wrap .round b) (hasLoose_wrap .round b hi) (by simp)
    have hr := ih (before ++ [Token.opening .round]) (by simp)
    exact .head (by simpa using hu) (by simpa using hr)
  | case3 last t ts hg hd ih => simpa using ih (before ++ [t]) (by simp)
  | case4 last t r hg ih => simpa using ih (before ++ [t]) (by simp)

theorem stripFirst_unwraps (before : List Token) {us vs : List Token}
    (h : stripFirst before.getLast? us = some vs) : Unwraps (before ++ us) (before ++ vs) := by
  induction us generalizing before vs with
  | nil => cases h
  | cons t r ih =>
    simp only [stripFirst] at h
    split at h
    · rename_i ws hw
      cases h
      split at hw
      · rename_i hg
        split at hw
        · rename_i inside closer rest hgroup
          split at hw
          · rename_i ht
            cases hw
            obtain ⟨rfl, hgroups⟩ := groups_of_opensGroup hg
            obtain ⟨hi, b, rfl⟩ := splitGroup_balanced hgroup
            simp only [isTight, Bool.and_eq_true, Bool.not_eq_true', List.isEmpty_eq_false_iff]
              at ht
            rw [← splitGroup_append hgroup]
            exact .pair b hgroups hi ht.2 ht.1.1
          · cases hw
        · cases hw
      · cases hw
    · split at h
      · rename_i ws hw
        cases h
        simpa using ih (before ++ [t]) (by simpa using hw)
      · cases h

theorem strip_unwraps (ts : List Token) : ReflTransGen Unwraps ts (strip ts) := by
  fun_induction strip ts with
  | case1 ts us hs ih => exact .head (stripFirst_unwraps [] hs) ih
  | case2 => exact .refl

theorem normal_unwraps (ts : List Token) : ReflTransGen Unwraps ts (strip (collapse none ts)) :=
  (collapse_unwraps [] ts).trans (strip_unwraps _)

end Code

end Kinetics

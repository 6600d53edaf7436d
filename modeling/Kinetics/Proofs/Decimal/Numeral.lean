import Kinetics.Decimal.Style
import Mathlib.Data.List.Basic
import Mathlib.Data.Nat.Digits.Defs

/-!
# Kinetics.Proofs.Decimal.Numeral

The numerals that numbers are written as. They have a whole digit, no nought leads other whole
digits, and all characters of both parts are digits; so any reader of decimal numbers takes them
whole.
-/

namespace Kinetics

namespace Decimal

open Text

variable {n : Nat} {m : Nat} {q : Int}

theorem natDigits_ne_nil (n : Nat) : natDigits n ≠ [] :=
  Nat.toDigits_ne_nil

theorem isDigit_natDigits (n : Nat) : ∀ c ∈ natDigits n, c.isDigit = true :=
  fun _ hc => Nat.isDigit_of_mem_toDigits (by decide) (Nat.le_refl 10) hc

/-- Only nought is written with a nought in front. -/
theorem head_natDigits (h : n ≠ 0) : (natDigits n).head? ≠ some '0' := by
  have hdigit : ∀ k : Nat, k < 10 → k ≠ 0 → k.digitChar ≠ '0' := by decide
  induction n using Nat.strongRecOn with
  | ind n ih =>
    rw [natDigits, Nat.toDigits_eq_if (by decide)]
    split
    · rename_i hlt
      rw [List.head?_cons, Ne, Option.some_inj]
      exact hdigit n hlt h
    · rw [List.head?_append_of_ne_nil _ Nat.toDigits_ne_nil]
      exact ih (n / 10) (by omega) (by omega)

theorem digitsValue_natDigits (n : Nat) : digitsValue (natDigits n) = n := by
  have hdigit : ∀ k : Nat, k < 10 → k.digitChar.toNat - 48 = k := by decide
  induction n using Nat.strongRecOn with
  | ind n ih =>
    rw [natDigits, Nat.toDigits_eq_if (by decide)]
    split
    · rename_i hlt
      simp only [digitsValue, List.foldl_cons, List.foldl_nil, hdigit n hlt]
      omega
    · rw [digitsValue_concat, hdigit _ (Nat.mod_lt n (by decide))]
      have := ih (n / 10) (by omega)
      rw [natDigits] at this
      omega

namespace Interval

theorem ne_zero_of_holds {i : Interval} (hlow : 0 < i.low) (h : i.holds n = true) : n ≠ 0 := by
  rintro rfl
  simp only [holds, Nat.zero_mul, Nat.not_lt_zero, decide_false, Bool.false_or, Bool.and_eq_true,
    beq_iff_eq] at h
  omega

theorem low_ofBinary (hm : m ≠ 0) (q : Int) (narrow : Bool) : 0 < (ofBinary m q narrow).low := by
  have hlow : 0 < 4 * m - (if narrow then 1 else 2) := by split <;> omega
  simp only [ofBinary]
  split
  · exact Nat.mul_pos hlow (Nat.pow_pos (Nat.zero_lt_two))
  · exact hlow

theorem low_inUnits {i : Interval} (hlow : 0 < i.low) (k : Int) : 0 < (i.inUnits k).low := by
  unfold inUnits
  split
  · exact hlow
  · exact Nat.mul_pos hlow (Nat.pow_pos (show 0 < 10 by decide))

theorem search_ne_zero {i : Interval} {tie : Tie} {fuel : Nat} {k : Int} {d : Nat × Int}
    (hlow : 0 < i.low) (h : i.search tie fuel k = some d) : d.1 ≠ 0 := by
  induction fuel generalizing k with
  | zero => cases h
  | succ fuel ih =>
    rw [search] at h
    split at h
    · rename_i w hw
      cases h
      exact ne_zero_of_holds (low_inUnits hlow k) (holds_of_nearestWhole hw)
    · exact ih h

end Interval

theorem exact_ne_zero (hm : m ≠ 0) (q : Int) : (exact m q).1 ≠ 0 := by
  unfold exact
  split
  · exact Nat.mul_ne_zero hm (Nat.pow_pos (show 0 < 2 by decide)).ne'
  · exact Nat.mul_ne_zero hm (Nat.pow_pos (show 0 < 5 by decide)).ne'

theorem dropNoughts_ne_zero {fuel : Nat} {k : Int} (h : n ≠ 0) : (dropNoughts fuel n k).1 ≠ 0 := by
  induction fuel generalizing n k with
  | zero => exact h
  | succ fuel ih =>
    rw [dropNoughts]
    split
    · exact ih (by omega)
    · exact h

theorem shortest_ne_zero (hm : m ≠ 0) (tie : Tie) (q : Int) (narrow : Bool) :
    (shortest tie m q narrow).1 ≠ 0 := by
  refine dropNoughts_ne_zero ?_
  cases hs : (Interval.ofBinary m q narrow).search tie 20 (upperExponent m q) with
  | none => exact exact_ne_zero hm q
  | some d => exact Interval.search_ne_zero (Interval.low_ofBinary hm q narrow) hs

/-- A numeral of digits, with no nought in front of other whole digits. -/
structure Numeral.Regular (n : Numeral) : Prop where
  whole : n.whole ≠ []
  wholeDigits : ∀ c ∈ n.whole, c.isDigit = true
  leading : n.whole = ['0'] ∨ n.whole.head? ≠ some '0'
  fractionDigits : ∀ c ∈ n.fraction, c.isDigit = true

theorem Numeral.regular_ofNat (n : Nat) : (Numeral.ofNat n).Regular := by
  refine ⟨natDigits_ne_nil n, isDigit_natDigits n, ?_, nofun⟩
  by_cases h : n = 0
  · subst h
    exact .inl rfl
  · exact .inr (head_natDigits h)

section Written

variable {digits : List Char} (hne : digits ≠ []) (hd : ∀ c ∈ digits, c.isDigit = true)
  (hl : digits = ['0'] ∨ digits.head? ≠ some '0')

include hne hd hl

theorem regular_positional (negative : Bool) {point : Int} (hp : digits = ['0'] → point ≤ 1) :
    (positional negative digits point).Regular := by
  have hzero : ∀ k, ∀ c ∈ List.replicate k '0', c.isDigit = true := by
    intro k c hc
    rw [List.eq_of_mem_replicate hc]
    rfl
  have horZero : ∀ cs : List Char, (∀ c ∈ cs, c.isDigit = true) →
      ∀ c ∈ (if cs.isEmpty then ['0'] else cs), c.isDigit = true := by
    intro cs hcs c hc
    split at hc
    · rw [List.mem_singleton.1 hc]
      rfl
    · exact hcs c hc
  simp only [positional]
  split
  · refine ⟨nofun, horZero [] nofun, .inl rfl, horZero _ fun c hc => ?_⟩
    exact (List.mem_append.1 hc).elim (hzero _ c) (hd c)
  · rename_i hpoint
    obtain ⟨d, ds, rfl⟩ := List.exists_cons_of_ne_nil hne
    obtain ⟨k, hk⟩ : ∃ k, point.toNat = k + 1 := ⟨point.toNat - 1, by omega⟩
    rw [hk, List.take_succ_cons, List.drop_succ_cons, List.cons_append]
    obtain ⟨hfirst, hrest⟩ := List.forall_mem_cons.1 hd
    refine ⟨nofun, List.forall_mem_cons.2 ⟨hfirst, fun c hc => ?_⟩, ?_,
      horZero _ fun c hc => hrest c (List.mem_of_mem_drop hc)⟩
    · exact (List.mem_append.1 hc).elim (fun h => hrest c (List.mem_of_mem_take h)) (hzero _ c)
    · rcases hl with hl | hl
      · have := hp hl
        cases hl
        obtain rfl : k = 0 := by omega
        obtain rfl : point = 1 := by omega
        exact .inl rfl
      · exact .inr hl

theorem regular_scientific (negative : Bool) (exponent : Int) :
    (scientific negative digits exponent).Regular := by
  obtain ⟨d, ds, rfl⟩ := List.exists_cons_of_ne_nil hne
  refine ⟨nofun, List.forall_mem_cons.2 ⟨hd d List.mem_cons_self, nofun⟩, ?_,
    fun c hc => hd c (List.mem_of_mem_drop hc)⟩
  rcases hl with hl | hl
  · exact .inl (by rw [scientific, hl]; rfl)
  · exact .inr hl

end Written

/-- Every number is written regularly. -/
theorem Style.regular_numeral? {s : Style} {x : Float} {n : Numeral} (h : s.numeral? x = some n) :
    n.Regular := by
  simp only [numeral?] at h
  split at h
  · cases h
  · rename_i negative m q narrow hdecode
    split at h
    · cases h
      exact regular_positional (List.cons_ne_nil '0' []) (by simp) (.inl rfl) negative
        fun _ => Int.le_refl 1
    · rename_i hm
      have hne := shortest_ne_zero hm s.tie q narrow
      have hhead := head_natDigits hne
      split at h
      · cases h
        refine regular_positional (natDigits_ne_nil _) (isDigit_natDigits _) (.inr hhead) negative
          fun hz => ?_
        rw [hz] at hhead
        exact absurd rfl hhead
      · cases h
        exact regular_scientific (natDigits_ne_nil _) (isDigit_natDigits _) (.inr hhead) negative _

end Decimal

end Kinetics

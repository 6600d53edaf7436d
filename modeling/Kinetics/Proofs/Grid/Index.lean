import Mathlib.Algebra.BigOperators.Group.List.Basic
import Mathlib.Algebra.GroupWithZero.Nat
import Mathlib.Data.List.Forall2

/-!
# Kinetics.Proofs.Grid.Index

Positions in dense arrays. An array with a list of extents is addressed by a list of coordinates,
one below each extent; row by row, every such list has a position of its own below the product of
the extents. The last axis runs fastest.
-/

namespace Kinetics

namespace Grid

/-- Coordinates, each below its extent. -/
abbrev Within (is ns : List Nat) : Prop :=
  List.Forall₂ (· < ·) is ns

def rowMajor : List Nat → List Nat → Nat
  | _ :: ns, i :: is => i * ns.prod + rowMajor ns is
  | _, _ => 0

/-- The coordinates of a position. -/
def unravel : List Nat → Nat → List Nat
  | [], _ => []
  | _ :: ns, k => k / ns.prod :: unravel ns (k % ns.prod)

variable {is js ns ms : List Nat} {i j k n m : Nat}

theorem rowMajor_lt (h : Within is ns) : rowMajor ns is < ns.prod := by
  induction h with
  | nil => simp [rowMajor]
  | @cons i n is ns hi _ ih =>
    have hmul : (i + 1) * ns.prod ≤ n * ns.prod := Nat.mul_le_mul_right _ hi
    rw [Nat.add_mul] at hmul
    rw [rowMajor, List.prod_cons]
    omega

theorem unravel_rowMajor (h : Within is ns) : unravel ns (rowMajor ns is) = is := by
  induction h with
  | nil => rfl
  | @cons i n is ns _ h ih =>
    have hlt := rowMajor_lt h
    have hpos : 0 < ns.prod := by omega
    rw [rowMajor, unravel, Nat.mul_comm i, Nat.mul_add_div hpos, Nat.div_eq_of_lt hlt,
      Nat.mul_add_mod, Nat.mod_eq_of_lt hlt, ih, Nat.add_zero]

theorem unravel_within (h : k < ns.prod) : Within (unravel ns k) ns := by
  induction ns generalizing k with
  | nil => exact .nil
  | cons n ns ih =>
    rw [List.prod_cons] at h
    have hpos : 0 < ns.prod := by
      rcases Nat.eq_zero_or_pos ns.prod with h0 | h0
      · simp [h0] at h
      · exact h0
    exact .cons ((Nat.div_lt_iff_lt_mul hpos).2 h) (ih (Nat.mod_lt k hpos))

theorem rowMajor_unravel (h : k < ns.prod) : rowMajor ns (unravel ns k) = k := by
  induction ns generalizing k with
  | nil =>
    rw [List.prod_nil] at h
    simp [rowMajor]
    omega
  | cons n ns ih =>
    rw [List.prod_cons] at h
    have hpos : 0 < ns.prod := by
      rcases Nat.eq_zero_or_pos ns.prod with h0 | h0
      · simp [h0] at h
      · exact h0
    rw [unravel, rowMajor, ih (Nat.mod_lt k hpos), Nat.mul_comm]
    exact Nat.div_add_mod k ns.prod

theorem rowMajor_injective (hi : Within is ns) (hj : Within js ns)
    (h : rowMajor ns is = rowMajor ns js) : is = js := by
  rw [← unravel_rowMajor hi, ← unravel_rowMajor hj, h]

/-- One more axis at the end. -/
theorem rowMajor_concat (h : is.length = ns.length) :
    rowMajor (ns ++ [n]) (is ++ [i]) = rowMajor ns is * n + i := by
  induction is generalizing ns with
  | nil =>
    cases List.length_eq_zero_iff.1 h.symm
    simp [rowMajor]
  | cons j is ih =>
    cases ns with
    | nil => simp at h
    | cons m ns =>
      rw [List.cons_append, List.cons_append, rowMajor, rowMajor, ih (by simpa using h)]
      rw [List.prod_append, List.prod_singleton, Nat.add_mul, Nat.mul_assoc, Nat.add_assoc]

theorem within_concat :
    Within is (ns ++ [n]) ↔ ∃ js j, is = js ++ [j] ∧ Within js ns ∧ j < n := by
  constructor
  · intro h
    have hlast := List.forall₂_drop_append _ _ _ h
    rw [← List.take_append_drop ns.length is]
    cases hd : is.drop ns.length with
    | nil =>
      rw [hd] at hlast
      cases hlast
    | cons j js =>
      rw [hd] at hlast
      cases hlast with
      | cons hj hnil =>
        cases hnil
        exact ⟨_, j, rfl, List.forall₂_take_append _ _ _ h, hj⟩
  · rintro ⟨js, j, rfl, hjs, hj⟩
    exact List.rel_append hjs (.cons hj .nil)

end Grid

end Kinetics

import Kinetics.Program.Layout
import Kinetics.Proofs.Grid.Basic
import Kinetics.Proofs.Program.Binding
import Kinetics.Proofs.Space.Point

/-!
# Kinetics.Proofs.Program.Layout

Where the cells of the states lie in the flat vector. Within its block, each half of each cell has
a position of its own, and these are all positions that the block has: the block is stored row by
row, with the fluxes of a joint one along the last axis, or right behind a single state. Blocks
follow one another without a gap, so that a position belongs to one half of one cell of one block.
-/

namespace Kinetics

namespace Program

/-- A state or its flux. -/
inductive Half where
  | state
  | flux
  deriving DecidableEq

/-- How far a half is moved along the last axis of a joint block. -/
def Half.shift (n : Nat) : Half → Nat
  | .state => 0
  | .flux => n

namespace VectorBlock

open Grid

def Holds (s : VectorBlock) (h : Half) : Prop :=
  h = .flux → s.joint = true

/-- The position of a half of a cell in a block. -/
def index (s : VectorBlock) : Half → List Nat → Nat
  | .state, is => rowMajor s.blockExtents is
  | .flux, is =>
    match s.extents.getLast? with
    | none => 1
    | some n => rowMajor s.blockExtents (shiftLast n is)

variable {s : VectorBlock} {h h' : Half} {is js ns : List Nat} {k n : Nat}

theorem doubleLast_concat (n : Nat) (ns : List Nat) : doubleLast (ns ++ [n]) = ns ++ [2 * n] := by
  induction ns with
  | nil => rfl
  | cons m ns ih =>
    have hne : ns ++ [n] = [] → False := by simp
    rw [List.cons_append, List.cons_append, doubleLast.eq_3 m _ hne, ih]

theorem length_eq (s : VectorBlock) :
    s.length = if s.joint then 2 * s.extents.prod else s.extents.prod := by
  rw [length, size, List.prod_eq_foldl]

theorem index_alone (hj : s.joint = false) : s.index .state is = rowMajor s.extents is := by
  simp [index, blockExtents, hj]

theorem index_joint (hj : s.joint = true) (he : s.extents = ns ++ [n]) (h : Half) (is : List Nat)
    (i : Nat) :
    s.index h (is ++ [i]) = rowMajor (ns ++ [2 * n]) (is ++ [i + h.shift n]) := by
  cases h <;> simp [index, blockExtents, hj, he, doubleLast_concat, shiftLast_concat, Half.shift]

theorem length_joint (hj : s.joint = true) (he : s.extents = ns ++ [n]) :
    s.length = (ns ++ [2 * n]).prod := by
  rw [length_eq, if_pos hj, he, List.prod_append, List.prod_append, List.prod_singleton,
    List.prod_singleton, Nat.mul_left_comm]

theorem index_joint_scalar (hj : s.joint = true) (he : s.extents = []) :
    s.index h [] = h.shift 1 := by
  cases h <;> simp [index, blockExtents, hj, he, doubleLast, rowMajor, Half.shift]

theorem Holds.eq_state (hh : s.Holds h) (hj : s.joint = false) : h = .state := by
  cases h with
  | state => rfl
  | flux => rw [hh rfl] at hj; cases hj

theorem index_lt (hh : s.Holds h) (hw : Within is s.extents) : s.index h is < s.length := by
  cases hj : s.joint with
  | false =>
    rw [hh.eq_state hj, index_alone hj, length_eq, hj]
    exact rowMajor_lt hw
  | true =>
    rcases List.eq_nil_or_concat s.extents with he | ⟨ns, n, he⟩
    · rw [he] at hw
      cases hw
      rw [index_joint_scalar hj he, length_eq, if_pos hj, he]
      cases h <;> decide
    · rw [List.concat_eq_append] at he
      rw [he] at hw
      obtain ⟨js, i, rfl, hjs, hi⟩ := within_concat.1 hw
      rw [index_joint hj he, length_joint hj he]
      refine rowMajor_lt (within_concat.2 ⟨js, _, rfl, hjs, ?_⟩)
      cases h <;> simp only [Half.shift] <;> omega

/-- Different halves and cells have different positions in the block. -/
theorem index_injective (hh : s.Holds h) (hh' : s.Holds h') (hw : Within is s.extents)
    (hw' : Within js s.extents) (he : s.index h is = s.index h' js) : h = h' ∧ is = js := by
  cases hj : s.joint with
  | false =>
    rw [hh.eq_state hj, hh'.eq_state hj, index_alone hj, index_alone hj] at he
    exact ⟨(hh.eq_state hj).trans (hh'.eq_state hj).symm, rowMajor_injective hw hw' he⟩
  | true =>
    rcases List.eq_nil_or_concat s.extents with hnil | ⟨ns, n, hc⟩
    · rw [hnil] at hw hw'
      cases hw
      cases hw'
      rw [index_joint_scalar hj hnil, index_joint_scalar hj hnil] at he
      refine ⟨?_, rfl⟩
      cases h <;> cases h' <;> first | rfl | cases he
    · rw [List.concat_eq_append] at hc
      rw [hc] at hw hw'
      obtain ⟨is, i, rfl, his, hi⟩ := within_concat.1 hw
      obtain ⟨js, j, rfl, hjs, hj'⟩ := within_concat.1 hw'
      rw [index_joint hj hc, index_joint hj hc] at he
      have hsame := rowMajor_injective
        (within_concat.2 ⟨is, i + h.shift n, rfl, his, by
          cases h <;> simp only [Half.shift] <;> omega⟩)
        (within_concat.2 ⟨js, j + h'.shift n, rfl, hjs, by
          cases h' <;> simp only [Half.shift] <;> omega⟩) he
      obtain ⟨rfl, hlast⟩ := List.append_inj' hsame rfl
      have hlast : i + h.shift n = j + h'.shift n := List.cons.inj hlast |>.1
      cases h <;> cases h' <;> simp only [Half.shift] at hlast
      · exact ⟨rfl, by rw [show i = j by omega]⟩
      · omega
      · omega
      · exact ⟨rfl, by rw [show i = j by omega]⟩

/-- Every position of the block belongs to a half of a cell. -/
theorem index_surjective (hk : k < s.length) :
    ∃ h is, s.Holds h ∧ Within is s.extents ∧ s.index h is = k := by
  cases hj : s.joint with
  | false =>
    rw [length_eq, hj] at hk
    exact ⟨.state, unravel s.extents k, nofun, unravel_within hk, by
      rw [index_alone hj, rowMajor_unravel hk]⟩
  | true =>
    rcases List.eq_nil_or_concat s.extents with he | ⟨ns, n, he⟩
    · rw [length_eq, if_pos hj, he] at hk
      have h01 : k = 0 ∨ k = 1 := by
        simp only [List.prod_nil] at hk
        omega
      rcases h01 with rfl | rfl
      · exact ⟨.state, [], nofun, by rw [he]; exact .nil, index_joint_scalar hj he⟩
      · exact ⟨.flux, [], fun _ => hj, by rw [he]; exact .nil, index_joint_scalar hj he⟩
    · rw [List.concat_eq_append] at he
      rw [length_joint hj he] at hk
      obtain ⟨is, i, his, hw, hi⟩ := within_concat.1 (unravel_within hk)
      have hback := rowMajor_unravel hk
      rw [his] at hback
      -- the last coordinate tells the half
      by_cases hin : i < n
      · refine ⟨.state, is ++ [i], nofun, he ▸ within_concat.2 ⟨is, i, rfl, hw, hin⟩, ?_⟩
        rw [index_joint hj he]
        exact hback
      · refine ⟨.flux, is ++ [i - n], fun _ => hj,
          he ▸ within_concat.2 ⟨is, i - n, rfl, hw, by omega⟩, ?_⟩
        have hsum : i - n + Half.shift n .flux = i := by
          simp only [Half.shift]
          omega
        rw [index_joint hj he, hsum]
        exact hback

/-- The position in the flat vector of a half of a point. -/
def cellOf (s : VectorBlock) (t : Topology) (q : Point) : Half → Option Nat
  | .state => some (s.cells t q).1
  | .flux => (s.cells t q).2

theorem cellOf_eq {t : Topology} (hf : s.extents = t.extents s.shape) {q : Point} :
    s.cellOf t q h = some k ↔ s.Holds h ∧ k = s.offset + s.index h (q.along s.shape.axes) := by
  rcases List.eq_nil_or_concat s.shape.axes with ha | ⟨axes, last, ha⟩
  · have he : s.extents = [] := by rw [hf, Topology.extents, ha]; rfl
    have hal : q.along s.shape.axes = [] := by rw [ha]; rfl
    rw [hal]
    cases hj : s.joint with
    | false => cases h <;> simp [cellOf, cells, ha, hj, Holds, index_alone, he, rowMajor, eq_comm]
    | true =>
      rw [index_joint_scalar hj he]
      cases h <;> simp [cellOf, cells, ha, hj, Holds, Half.shift, eq_comm]
  · rw [List.concat_eq_append] at ha
    have he : s.extents = axes.map t.extent ++ [t.extent last] := by
      rw [hf, Topology.extents, ha]
      simp
    have hal : q.along s.shape.axes = q.along axes ++ [(q.coordinate last).getD 0] := by
      rw [ha, Point.along_concat]
    rw [hal]
    cases hj : s.joint with
    | false =>
      cases h with
      | flux => simp [cellOf, cells, ha, hj, Holds]
      | state =>
        rw [index_alone hj, he, rowMajor_concat (by simp), ← Topology.offsetOver_eq]
        simp [cellOf, cells, ha, hj, Holds, Nat.add_assoc, eq_comm]
    | true =>
      rw [index_joint hj he, rowMajor_concat (by simp), ← Topology.offsetOver_eq]
      cases h <;> simp [cellOf, cells, ha, hj, Holds, Half.shift, Nat.add_assoc, Nat.mul_assoc,
        eq_comm]

/-- Blocks from an offset on, without a gap. -/
def Stacked (offset : Nat) : List VectorBlock → Prop
  | [] => True
  | s :: ss => s.offset = offset ∧ Stacked (offset + s.length) ss

def total (blocks : List VectorBlock) : Nat :=
  (blocks.map length).sum

section Stack

variable {blocks : List VectorBlock} {o : Nat}

theorem total_cons (s : VectorBlock) (blocks : List VectorBlock) :
    total (s :: blocks) = s.length + total blocks := by
  simp [total]

theorem Stacked.bounds (h : Stacked o blocks) (hs : s ∈ blocks) :
    o ≤ s.offset ∧ s.offset + s.length ≤ o + total blocks := by
  induction blocks generalizing o with
  | nil => cases hs
  | cons b blocks ih =>
    rw [total_cons]
    rcases List.mem_cons.1 hs with rfl | hs
    · have ho := h.1
      omega
    · have hin := ih h.2 hs
      omega

theorem Stacked.offset_eq {before after : List VectorBlock}
    (h : Stacked o (before ++ s :: after)) : s.offset = o + total before := by
  induction before generalizing o with
  | nil => exact h.1
  | cons b before ih => rw [ih h.2, total_cons, Nat.add_assoc]

/-- A block ends before every later one starts. -/
theorem Stacked.end_le {i j : Nat} {s' : VectorBlock} (h : Stacked o blocks)
    (hi : blocks[i]? = some s) (hj : blocks[j]? = some s') (hlt : i < j) :
    s.offset + s.length ≤ s'.offset := by
  induction blocks generalizing o i j with
  | nil => simp at hi
  | cons b blocks ih =>
    cases j with
    | zero => omega
    | succ j =>
      rw [List.getElem?_cons_succ] at hj
      cases i with
      | zero =>
        rw [List.getElem?_cons_zero] at hi
        cases hi
        have ho := h.1
        have hin := (h.2.bounds (List.mem_of_getElem? hj)).1
        omega
      | succ i => exact ih h.2 hi hj (by omega)

/-- A position in the flat vector belongs to one half of one cell of one block. -/
theorem Stacked.injective {i j : Nat} {s' : VectorBlock} (hst : Stacked o blocks)
    (hi : blocks[i]? = some s) (hj : blocks[j]? = some s') (hh : s.Holds h) (hh' : s'.Holds h')
    (hw : Within is s.extents) (hw' : Within js s'.extents)
    (he : s.offset + s.index h is = s'.offset + s'.index h' js) :
    i = j ∧ h = h' ∧ is = js := by
  have hin := index_lt hh hw
  have hin' := index_lt hh' hw'
  rcases Nat.lt_trichotomy i j with hlt | rfl | hlt
  · have := hst.end_le hi hj hlt
    omega
  · rw [hi] at hj
    cases hj
    exact ⟨rfl, index_injective hh hh' hw hw' (by omega)⟩
  · have := hst.end_le hj hi hlt
    omega

/-- Every position of the flat vector belongs to a half of a cell. -/
theorem Stacked.surjective (hst : Stacked o blocks) (ho : o ≤ k) (hk : k < o + total blocks) :
    ∃ s ∈ blocks, ∃ h is, s.Holds h ∧ Within is s.extents ∧ k = s.offset + s.index h is := by
  induction blocks generalizing o with
  | nil =>
    simp only [total, List.map_nil, List.sum_nil] at hk
    omega
  | cons s blocks ih =>
    rw [total_cons] at hk
    by_cases hlt : k < o + s.length
    · obtain ⟨h, is, hh, hw, hindex⟩ := index_surjective (s := s) (k := k - o) (by omega)
      refine ⟨s, by simp, h, is, hh, hw, ?_⟩
      have hoff := hst.1
      omega
    · obtain ⟨s', hs', hrest⟩ := ih hst.2 (by omega) (by omega)
      exact ⟨s', List.mem_cons_of_mem _ hs', hrest⟩

end Stack

theorem layAll_ok {t : Topology} {n n' : Names} {joint : Bool} {o : Nat}
    {states : List StateEquation} {blocks : List VectorBlock}
    (h : layAll t n joint o states = .ok (n', blocks)) :
    Stacked o blocks ∧ ∀ s ∈ blocks, s.extents = t.extents s.shape := by
  induction states generalizing n joint o blocks with
  | nil =>
    cases h
    exact ⟨trivial, fun s hs => nomatch hs⟩
  | cons e states ih =>
    obtain ⟨b, n₁, rest, -, -, hrest, rfl⟩ := layAll_cons_ok h
    obtain ⟨hstack, hext⟩ := ih hrest
    refine ⟨⟨rfl, hstack⟩, fun s hs => ?_⟩
    rcases List.mem_cons.1 hs with rfl | hs
    · rfl
    · exact hext s hs

end VectorBlock

end Program

end Kinetics

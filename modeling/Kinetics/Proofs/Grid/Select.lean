import Kinetics.Proofs.Grid.Basic

/-!
# Kinetics.Proofs.Grid.Select

Basic indexing of a dense array: an index has for each of the first axes a position, or nothing for
the whole axis, and the axes behind are taken whole. A position out of range and an index with more
entries than there are axes select nothing. Entries at the end that take axes whole do not matter.
-/

namespace Kinetics

namespace Grid

variable {α ι : Type} {a : Grid α} {is : List (Option Nat)} {js ns : List Nat} {n : Nat}

/-- The extents of the axes that an index takes whole. -/
def left : List (Option Nat) → List Nat → Option (List Nat)
  | [], ns => some ns
  | _ :: _, [] => none
  | some i :: is, n :: ns => if i < n then left is ns else none
  | none :: is, n :: ns => (left is ns).map (n :: ·)

/-- The coordinates with those that an index fixes. -/
def place : List (Option Nat) → List Nat → List Nat
  | [], js => js
  | some i :: is, js => i :: place is js
  | none :: _, [] => []
  | none :: is, j :: js => j :: place is js

def select (is : List (Option Nat)) (a : Grid α) : Option (Grid α) :=
  (left is a.extents).map fun ns => ⟨ns, fun js => a.cell (place is js)⟩

theorem left_append_whole (h : is.length + n ≤ ns.length) :
    left (is ++ List.replicate n none) ns = left is ns := by
  induction is generalizing ns with
  | nil =>
    induction n generalizing ns with
    | zero => rfl
    | succ n ih =>
      cases ns with
      | nil => simp at h
      | cons m ns =>
        have hn := @ih ns (by simp at h ⊢; omega)
        rw [List.nil_append] at hn ⊢
        simp [List.replicate_succ, left, hn]
  | cons i is ih =>
    cases ns with
    | nil => rfl
    | cons m ns =>
      have hn := @ih ns (by simp at h ⊢; omega)
      cases i with
      | none => rw [List.cons_append, left, left, hn]
      | some i => rw [List.cons_append, left, left, hn]

theorem place_append_whole (is : List (Option Nat)) (n : Nat) (js : List Nat) :
    place (is ++ List.replicate n none) js = place is js := by
  induction is generalizing js with
  | nil =>
    induction n generalizing js with
    | zero => rfl
    | succ n ih =>
      cases js with
      | nil => rfl
      | cons j js =>
        have hn := ih js
        rw [List.nil_append] at hn ⊢
        simp [List.replicate_succ, place, hn]
  | cons i is ih =>
    cases i with
    | some i => rw [List.cons_append, place, place, ih]
    | none =>
      cases js with
      | nil => rfl
      | cons j js => rw [List.cons_append, place, place, ih]

/-- Axes taken whole at the end of an index may be left out. -/
theorem select_append_whole (h : is.length + n ≤ a.extents.length) :
    a.select (is ++ List.replicate n none) = a.select is := by
  simp only [select, left_append_whole h, place_append_whole]

section Axes

variable {axes : List ι} {extent : ι → Nat} {fixed : ι → Option Nat} {f : ι → Nat}

/-- The axes that are not fixed. -/
def free (fixed : ι → Option Nat) (axes : List ι) : List ι :=
  axes.filter fun x => (fixed x).isNone

theorem left_axes (h : ∀ x ∈ axes, ∀ i, fixed x = some i → i < extent x) :
    left (axes.map fixed) (axes.map extent) = some ((free fixed axes).map extent) := by
  induction axes with
  | nil => rfl
  | cons x axes ih =>
    obtain ⟨hx, hrest⟩ := List.forall_mem_cons.1 h
    have ih := ih hrest
    cases hf : fixed x with
    | none => simpa [left, free, hf] using ih
    | some i => simpa [left, free, hf, hx i hf] using ih

theorem left_outside {x : ι} {i : Nat} (hx : x ∈ axes) (hf : fixed x = some i)
    (hi : extent x ≤ i) : left (axes.map fixed) (axes.map extent) = none := by
  induction axes with
  | nil => cases hx
  | cons y axes ih =>
    rcases List.mem_cons.1 hx with rfl | hx
    · simp [left, hf, Nat.not_lt.2 hi]
    · have ih := ih hx
      cases hy : fixed y with
      | none => simp [left, hy, ih]
      | some j => simp [left, hy, ih]

theorem place_axes (h : ∀ x ∈ axes, ∀ i, fixed x = some i → f x = i) :
    place (axes.map fixed) ((free fixed axes).map f) = axes.map f := by
  induction axes with
  | nil => rfl
  | cons x axes ih =>
    obtain ⟨hx, hrest⟩ := List.forall_mem_cons.1 h
    have ih := ih hrest
    cases hf : fixed x with
    | none => simpa [place, free, hf] using ih
    | some i => simpa [place, free, hf, hx i hf] using ih

/-- With positions on some axes, an array gives the part in which those axes are fixed: over the
other axes, and with the cells that lie there. -/
theorem select_axes (ha : a.extents = axes.map extent)
    (h : ∀ x ∈ axes, ∀ i, fixed x = some i → i < extent x) :
    ∃ b, a.select (axes.map fixed) = some b ∧ b.extents = (free fixed axes).map extent ∧
      ∀ f : ι → Nat, (∀ x ∈ axes, ∀ i, fixed x = some i → f x = i) →
        b.cell ((free fixed axes).map f) = a.cell (axes.map f) := by
  refine ⟨_, by rw [select, ha, left_axes h, Option.map_some], rfl, fun f hf => ?_⟩
  rw [← place_axes hf]

theorem select_outside (ha : a.extents = axes.map extent) {x : ι} {i : Nat} (hx : x ∈ axes)
    (hf : fixed x = some i) (hi : extent x ≤ i) : a.select (axes.map fixed) = none := by
  rw [select, ha, left_outside hx hf hi, Option.map_none]

end Axes

end Grid

end Kinetics

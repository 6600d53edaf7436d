import Kinetics.Proofs.Grid.Index

/-!
# Kinetics.Proofs.Grid.Basic

Dense arrays, and the operations on them that a generated program uses. An array has extents and a
cell at every list of coordinates within them; `ravel` and `reshape` list the cells row by row, a
view takes part of the last axis, and `joined` puts two arrays one behind the other along it.
Operations on what does not fit yield nothing.
-/

namespace Kinetics

structure Grid (α : Type) where
  extents : List Nat
  cell : List Nat → α

namespace Grid

variable {α : Type}

/-- The last coordinate moved on. -/
def shiftLast (n : Nat) : List Nat → List Nat
  | [] => []
  | [i] => [i + n]
  | i :: is => i :: shiftLast n is

theorem shiftLast_concat (n i : Nat) (is : List Nat) :
    shiftLast n (is ++ [i]) = is ++ [i + n] := by
  induction is with
  | nil => rfl
  | cons j is ih =>
    cases is with
    | nil => rfl
    | cons k is =>
      have hne : k :: (is ++ [i]) ≠ [] := by simp
      rw [List.cons_append, List.cons_append, shiftLast.eq_3 n j _ hne, ← List.cons_append, ih]
      rfl

def vector (n : Nat) (f : Nat → α) : Grid α :=
  ⟨[n], fun is => f (is.headD 0)⟩

def scalar (x : α) : Grid α :=
  ⟨[], fun _ => x⟩

def constant (ns : List Nat) (x : α) : Grid α :=
  ⟨ns, fun _ => x⟩

/-- The cell at a position of the array, row by row. -/
def flat (a : Grid α) (k : Nat) : α :=
  a.cell (unravel a.extents k)

def ravel (a : Grid α) : Grid α :=
  vector a.extents.prod a.flat

def reshape (ns : List Nat) (a : Grid α) : Option (Grid α) :=
  if a.extents.prod = ns.prod then some ⟨ns, fun is => a.flat (rowMajor ns is)⟩ else none

def item (k : Nat) (a : Grid α) : Option (Grid α) :=
  match a.extents with
  | [n] => if k < n then some (scalar (a.cell [k])) else none
  | _ => none

/-- A part of an array with one axis, cut off at its end. -/
def slice (start stop : Nat) (a : Grid α) : Option (Grid α) :=
  match a.extents with
  | [n] => some (vector (min stop n - min start n) fun k => a.cell [start + k])
  | _ => none

/-- The first part of the last axis. -/
def front (n : Nat) (a : Grid α) : Option (Grid α) :=
  a.extents.getLast?.map fun m => ⟨a.extents.dropLast ++ [min n m], a.cell⟩

/-- The rest of the last axis. -/
def back (n : Nat) (a : Grid α) : Option (Grid α) :=
  a.extents.getLast?.map fun m =>
    ⟨a.extents.dropLast ++ [m - n], fun is => a.cell (shiftLast n is)⟩

/-- Two arrays along the last axis. -/
def joined (a b : Grid α) : Option (Grid α) :=
  match a.extents.getLast?, b.extents.getLast? with
  | some m, some k =>
    if a.extents.dropLast = b.extents.dropLast then
      some ⟨a.extents.dropLast ++ [m + k], fun is =>
        if is.getLastD 0 < m then a.cell is
        else b.cell (is.dropLast ++ [is.getLastD 0 - m])⟩
    else none
  | _, _ => none

def pair (a b : Grid α) : Option (Grid α) :=
  if a.extents = [] ∧ b.extents = [] then
    some (vector 2 fun k => if k = 0 then a.cell [] else b.cell [])
  else none

/-- A list of arrays with one axis, one behind the other. -/
def concatenate : List (Grid α) → Option (Grid α)
  | [] => none
  | [a] => if a.extents.length = 1 then some a else none
  | a :: as => if a.extents.length = 1 then (concatenate as).bind a.joined else none

def setItem (a : Grid α) (k : Nat) (x : Grid α) : Option (Grid α) :=
  match a.extents with
  | [n] =>
    if k < n ∧ x.extents = [] then
      some (vector n fun j => if j = k then x.cell [] else a.cell [j])
    else none
  | _ => none

def setSlice (a : Grid α) (start stop : Nat) (x : Grid α) : Option (Grid α) :=
  match a.extents with
  | [n] =>
    if start ≤ stop ∧ stop ≤ n ∧ x.extents = [stop - start] then
      some (vector n fun j => if start ≤ j ∧ j < stop then x.cell [j - start] else a.cell [j])
    else none
  | _ => none

section Lemmas

variable {a b : Grid α} {ns is : List Nat} {k m n : Nat}

theorem flat_rowMajor (h : Within is a.extents) : a.flat (rowMajor a.extents is) = a.cell is := by
  rw [flat, unravel_rowMajor h]

theorem reshape_of_vector (h : a.extents = [m]) (hp : ns.prod = m) :
    ∃ b, a.reshape ns = some b ∧ b.extents = ns ∧
      ∀ is, Within is ns → b.cell is = a.cell [rowMajor ns is] := by
  have hprod : a.extents.prod = ns.prod := by rw [h, hp, List.prod_singleton]
  refine ⟨_, if_pos hprod, rfl, fun is hi => ?_⟩
  show a.flat (rowMajor ns is) = _
  have hlt := rowMajor_lt hi
  rw [flat, h]
  simp [unravel]

theorem slice_of_vector (h : a.extents = [n]) {start stop : Nat} (hs : start ≤ stop)
    (hn : stop ≤ n) :
    ∃ b, a.slice start stop = some b ∧ b.extents = [stop - start] ∧
      ∀ k, b.cell [k] = a.cell [start + k] := by
  refine ⟨vector (stop - start) fun k => a.cell [start + k], ?_, rfl, fun k => rfl⟩
  rw [slice, h]
  simp only [Nat.min_eq_left hn, Nat.min_eq_left (Nat.le_trans hs hn)]

theorem item_of_vector (h : a.extents = [n]) (hk : k < n) :
    a.item k = some (scalar (a.cell [k])) := by
  simp only [item, h, if_pos hk]

theorem front_concat (h : a.extents = ns ++ [m]) (hn : n ≤ m) :
    a.front n = some ⟨ns ++ [n], a.cell⟩ := by
  simp [front, h, Nat.min_eq_left hn]

theorem back_concat (h : a.extents = ns ++ [m]) :
    a.back n = some ⟨ns ++ [m - n], fun is => a.cell (shiftLast n is)⟩ := by
  simp [back, h]

theorem setItem_of_vector {x : Grid α} (h : a.extents = [n]) (hk : k < n) (hx : x.extents = []) :
    ∃ b, a.setItem k x = some b ∧ b.extents = [n] ∧ b.cell [k] = x.cell [] ∧
      ∀ j, j ≠ k → b.cell [j] = a.cell [j] := by
  refine ⟨vector n fun j => if j = k then x.cell [] else a.cell [j], ?_, rfl, if_pos rfl,
    fun j hj => if_neg hj⟩
  simp [setItem, h, hk, hx]

theorem setSlice_of_vector {x : Grid α} {start stop : Nat} (h : a.extents = [n])
    (hs : start ≤ stop) (hn : stop ≤ n) (hx : x.extents = [stop - start]) :
    ∃ b, a.setSlice start stop x = some b ∧ b.extents = [n] ∧
      (∀ j, start ≤ j → j < stop → b.cell [j] = x.cell [j - start]) ∧
      ∀ j, j < start ∨ stop ≤ j → b.cell [j] = a.cell [j] := by
  refine ⟨vector n fun j => if start ≤ j ∧ j < stop then x.cell [j - start] else a.cell [j], ?_,
    rfl, fun j h1 h2 => if_pos ⟨h1, h2⟩, fun j hj => if_neg fun hin => ?_⟩
  · simp [setSlice, h, hs, hn, hx]
  · rcases hj with hj | hj
    · exact absurd hin.1 (Nat.not_le.2 hj)
    · exact absurd hin.2 (Nat.not_lt.2 hj)

theorem pair_of_scalars (ha : a.extents = []) (hb : b.extents = []) :
    ∃ c, a.pair b = some c ∧ c.extents = [2] ∧ c.cell [0] = a.cell [] ∧ c.cell [1] = b.cell [] :=
  ⟨_, if_pos ⟨ha, hb⟩, rfl, rfl, rfl⟩

/-- Joined along the last axis, each array keeps its cells. -/
theorem joined_concat (ha : a.extents = ns ++ [m]) (hb : b.extents = ns ++ [k]) :
    ∃ c, a.joined b = some c ∧ c.extents = ns ++ [m + k] ∧
      (∀ is i, i < m → c.cell (is ++ [i]) = a.cell (is ++ [i])) ∧
      ∀ is i, c.cell (is ++ [i + m]) = b.cell (is ++ [i]) := by
  simp only [joined, ha, hb, List.getLast?_concat, List.dropLast_concat, if_pos]
  refine ⟨_, rfl, rfl, fun is i hi => ?_, fun is i => ?_⟩
  · simp [hi]
  · have hle : ¬i + m < m := by omega
    simp [hle]

/-- Concatenated, every array keeps its cells, behind those of the arrays before it. -/
theorem concatenate_ok {as : List (Grid α)} (hne : as ≠ [])
    (h : ∀ a ∈ as, ∃ n, a.extents = [n]) :
    ∃ c, concatenate as = some c ∧ c.extents = [(as.map fun a => a.extents.prod).sum] ∧
      ∀ (before : List (Grid α)) (a : Grid α) (after : List (Grid α)), as = before ++ a :: after →
        ∀ k, k < a.extents.prod →
          c.cell [(before.map fun a => a.extents.prod).sum + k] = a.cell [k] := by
  induction as with
  | nil => exact absurd rfl hne
  | cons a as ih =>
    obtain ⟨n, hn⟩ := h a (by simp)
    cases as with
    | nil =>
      refine ⟨a, by simp [concatenate, hn], by simp [hn], fun before b after hs k hk => ?_⟩
      cases before with
      | nil =>
        cases hs
        simp
      | cons c before => simp at hs
    | cons b as =>
      obtain ⟨c, hc, hce, hcells⟩ := ih (by simp) fun x hx => h x (List.mem_cons_of_mem _ hx)
      obtain ⟨d, hd, hde, hleft, hright⟩ :=
        joined_concat (show a.extents = [] ++ [n] from hn) (show c.extents = [] ++ [_] from hce)
      refine ⟨d, ?_, ?_, fun before x after hs k hk => ?_⟩
      · rw [concatenate, if_pos (by simp [hn]), hc, Option.bind_some, hd]
        simp
      · rw [hde]
        simp [hn]
      · cases before with
        | nil =>
          cases hs
          rw [hn, List.prod_singleton] at hk
          simpa using hleft [] k hk
        | cons y before =>
          obtain ⟨rfl, ht⟩ := List.cons.inj hs
          rw [← hcells before x after ht k hk]
          have hshift := hright [] ((before.map fun a => a.extents.prod).sum + k)
          rw [List.nil_append, List.nil_append] at hshift
          rw [← hshift, List.map_cons, List.sum_cons, hn, List.prod_singleton]
          congr 2
          omega

end Lemmas

end Grid

end Kinetics

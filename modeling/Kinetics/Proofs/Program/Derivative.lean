import Kinetics.Program.Derivative
import Kinetics.Proofs.Model.Resolve
import Kinetics.Proofs.Program.Plan

/-!
# Kinetics.Proofs.Program.Derivative

The body of the derivative, part by part: what the states and the time are called, the computed
variables in the order of the model, the derivatives. A variable that comes before another one in
the order is assigned as a whole before it, and all of them before the derivatives.
-/

namespace Kinetics

namespace Program

namespace Plan

open Statement

variable {p : Plan} {body : List Statement} {name other : String}

/-- A formula by which a variable is computed contains the symbol of another computed one. -/
def Uses (p : Plan) (name other : String) : Prop :=
  ∃ d law e symbol, p.model.definitions.find? name = some d ∧ d.isComputed = true ∧
    law ∈ d.laws ∧ p.formulas.find? law = some e ∧ symbol ∈ e.freeSymbols.toList ∧
    p.names.symbols.find? other = some symbol ∧ Model.Computes p.model.definitions other

/-- A variable is assigned, as a whole, in front of some statements of a body. -/
def AssignedBefore (p : Plan) (body : List Statement) (name : String)
    (later : List Statement) : Prop :=
  ∃ before target value points between after, p.nameIn name = .ok target ∧
    p.compute name = .ok (define target value :: points) ∧
    body = before ++ (define target value :: points) ++ between ++ later ++ after

theorem assignments_ok {target : String} {s : Shape} {law : Point → Option String}
    {ss : List Statement} (h : p.assignments target s law = .ok ss) :
    ∃ value points, ss = define target value :: points := by
  unfold assignments at h
  split at h
  · split at h
    · cases h
      exact ⟨_, _, rfl⟩
    · simp only [bind_ok, pure_ok] at h
      obtain ⟨code, -, rfl⟩ := h
      exact ⟨_, _, rfl⟩
  · simp only [bind_ok, pure_ok] at h
    obtain ⟨points, -, rfl⟩ := h
    exact ⟨_, _, rfl⟩

theorem compute_ok {ss : List Statement} (hc : Model.Computes p.model.definitions name)
    (h : p.compute name = .ok ss) :
    ∃ target value points, p.nameIn name = .ok target ∧ ss = define target value :: points := by
  simp only [compute, bind_ok] at h
  obtain ⟨b, hb, d, hd, h⟩ := h
  obtain ⟨d', hf, hcomp⟩ := hc
  simp only [Formulas.definitionOf, Dict.get, hf] at hd
  cases hd
  rw [if_pos hcomp] at h
  obtain ⟨value, points, rfl⟩ := assignments_ok h
  exact ⟨b.name, value, points, by simp [nameIn, hb, Except.map], rfl⟩

theorem derivativeBody_ok (h : p.derivativeBody = .ok body) :
    ∃ start computations derivatives finish, p.computations = .ok computations ∧
      collect p.differentiate p.states = .ok derivatives ∧
      body = start ++ computations ++ derivatives ++ [finish] := by
  simp only [derivativeBody, bind_ok, pure_ok] at h
  obtain ⟨independent, -, interpolated, -, computations, hc, derivatives, hd, rfl⟩ := h
  exact ⟨_, computations, derivatives, _, hc, hd, rfl⟩

/-- What comes before in the order is assigned before. -/
theorem assigned_before_computed {before after : List String} (h : p.derivativeBody = .ok body)
    (ho : p.model.order = before ++ name :: after) (hm : other ∈ before)
    (hc : Model.Computes p.model.definitions other) :
    ∃ own, p.compute name = .ok own ∧ p.AssignedBefore body other own := by
  obtain ⟨start, computations, derivatives, finish, hcomp, -, rfl⟩ := derivativeBody_ok h
  rw [Plan.computations, ho] at hcomp
  obtain ⟨left, own, right, hl, hown, -, rfl⟩ := collect_split hcomp
  obtain ⟨front, back, rfl⟩ := List.append_of_mem hm
  obtain ⟨first, block, rest, -, hblock, -, rfl⟩ := collect_split hl
  obtain ⟨target, value, points, ht, rfl⟩ := compute_ok hc hblock
  refine ⟨own, hown, start ++ first, target, value, points, rest, right ++ derivatives ++ [finish],
    ht, hblock, ?_⟩
  simp only [List.append_assoc]

/-- All computed variables are assigned before the derivatives. -/
theorem assigned_before_derivative {s : VectorBlock} (h : p.derivativeBody = .ok body)
    (hs : s ∈ p.states) (hm : name ∈ p.model.order)
    (hc : Model.Computes p.model.definitions name) :
    ∃ own, p.differentiate s = .ok own ∧ p.AssignedBefore body name own := by
  obtain ⟨start, computations, derivatives, finish, hcomp, hd, rfl⟩ := derivativeBody_ok h
  obtain ⟨front, back, ho⟩ := List.append_of_mem hm
  rw [Plan.computations, ho] at hcomp
  obtain ⟨first, block, rest, -, hblock, -, rfl⟩ := collect_split hcomp
  obtain ⟨before, after, hs⟩ := List.append_of_mem hs
  rw [hs] at hd
  obtain ⟨left, own, right, -, hown, -, rfl⟩ := collect_split hd
  obtain ⟨target, value, points, ht, rfl⟩ := compute_ok hc hblock
  refine ⟨own, hown, start ++ first, target, value, points, rest ++ left, right ++ [finish],
    ht, hblock, ?_⟩
  simp only [List.append_assoc]

end Plan

end Program

end Kinetics

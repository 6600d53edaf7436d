import Kinetics.Proofs.Model.Closure
import Mathlib.Data.List.DropRight
import Mathlib.Data.Prod.Lex
import Mathlib.Order.WellFounded

/-!
# Kinetics.Proofs.Model.Worklist

Closing a set of variables, one pending name at a time:

* `turn` takes the next pending name. A name that is defined is passed over; another one is
  defined, and the inputs of its laws become pending.
* `run` takes turns until there is a result, if the given number of turns is enough for one.

Taking turns comes to an end whatever the laws say of each other, since a turn leaves fewer
variables without a definition, or as many and fewer pending names; and the result is the one of
`close`.
-/

namespace Kinetics

/-- Variables with their definitions, and names still pending, the next one first. -/
structure Worklist where
  defs : Dict String Definition
  pending : List String

namespace Worklist

open Closure

/-- What a turn leads to. -/
inductive Turn where
  | next (w : Worklist)
  | result (r : Except Fault (Dict String Definition))

def turn (o : Ontology) (s : Selection) (a : Activation) (integral : String) (w : Worklist) : Turn :=
  match w.pending with
  | [] => .result (.ok w.defs)
  | name :: rest =>
    if w.defs.contains name then .next ⟨w.defs, rest⟩
    else
      match o.variableOf name with
      | .error e => .result (.error e)
      | .ok v =>
        match definitionOf o s a integral name v with
        | .error e => .result (.error e)
        | .ok d =>
          match a.inputsOf o s d.laws with
          | .error e => .result (.error e)
          | .ok inputs => .next ⟨w.defs.insert name d, inputs.reverse ++ rest⟩

/-- The result, if it is there within the number of turns. -/
def run (o : Ontology) (s : Selection) (a : Activation) (integral : String) :
    Nat → Worklist → Option (Except Fault (Dict String Definition))
  | 0, _ => none
  | n + 1, w =>
    match turn o s a integral w with
    | .next w => run o s a integral n w
    | .result r => some r

variable {o : Ontology} {s : Selection} {a : Activation} {integral : String} {w w' : Worklist}

theorem close_of_nil {defs : Dict String Definition} {pending : List String}
    (h : pending.dropWhile defs.contains = []) : close o s a integral defs pending = .ok defs := by
  rw [close]
  split
  · rfl
  · rename_i hp
    rw [h] at hp
    cases hp

theorem close_of_cons {defs : Dict String Definition} {pending rest : List String} {name : String}
    (h : pending.dropWhile defs.contains = name :: rest) :
    close o s a integral defs pending =
      match o.variableOf name with
      | .error e => .error e
      | .ok v =>
        match definitionOf o s a integral name v with
        | .error e => .error e
        | .ok d =>
          match a.inputsOf o s d.laws with
          | .error e => .error e
          | .ok inputs => close o s a integral (defs.insert name d) (inputs.reverse ++ rest) := by
  rw [close]
  split
  · rename_i hp
    rw [h] at hp
    cases hp
  · rename_i hp
    rw [h] at hp
    cases hp
    split
    · rename_i hv
      exact hv ▸ rfl
    · rename_i hv
      exact hv ▸ rfl

/-- Defined variables at the front are passed over. -/
theorem close_dropWhile {defs : Dict String Definition} {pending : List String} :
    close o s a integral defs (pending.dropWhile defs.contains) =
      close o s a integral defs pending := by
  have hd := List.dropWhile_idempotent (p := defs.contains) (l := pending)
  cases hp : pending.dropWhile defs.contains with
  | nil => rw [close_of_nil hp, close_of_nil rfl]
  | cons name rest =>
    rw [hp] at hd
    rw [close_of_cons hp, close_of_cons hd]

theorem close_pass {defs : Dict String Definition} {rest : List String} {name : String}
    (h : defs.contains name = true) :
    close o s a integral defs (name :: rest) = close o s a integral defs rest := by
  rw [← close_dropWhile, List.dropWhile_cons_of_pos h, close_dropWhile]

/-- A turn changes nothing about what closing gives. -/
theorem close_turn (w : Worklist) : close o s a integral w.defs w.pending =
    match turn o s a integral w with
    | .next w' => close o s a integral w'.defs w'.pending
    | .result r => r := by
  obtain ⟨defs, pending⟩ := w
  cases pending with
  | nil => exact close_of_nil rfl
  | cons name rest =>
    by_cases hc : defs.contains name = true
    · simp only [turn, hc, if_true]
      exact close_pass hc
    · rw [close_of_cons (List.dropWhile_cons_of_neg hc)]
      simp only [turn, if_neg hc]
      cases o.variableOf name with
      | error e => rfl
      | ok v =>
        dsimp only
        cases definitionOf o s a integral name v with
        | error e => rfl
        | ok d =>
          dsimp only
          cases a.inputsOf o s d.laws <;> rfl

/-- What is left to do: variables without a definition first, pending names second. -/
def left (o : Ontology) (w : Worklist) : Nat ×ₗ Nat :=
  toLex (undefinedCount o w.defs, w.pending.length)

/-- A turn that is not the last one leaves less to do. -/
theorem left_turn (h : turn o s a integral w = .next w') : w'.left o < w.left o := by
  obtain ⟨defs, pending⟩ := w
  simp only [turn] at h
  split at h
  · cases h
  · rename_i name rest
    split at h
    · cases h
      exact Prod.Lex.toLex_lt_toLex.2 (.inr ⟨rfl, Nat.lt_succ_self _⟩)
    · rename_i hc
      split at h
      · cases h
      · rename_i v hv
        split at h
        · cases h
        · split at h
          · cases h
          · cases h
            exact Prod.Lex.toLex_lt_toLex.2
              (.inl (undefinedCount_insert hv (Bool.not_eq_true _ ▸ hc)))

/-- Taking turns comes to an end, with the result of closing. -/
theorem run_close (w : Worklist) :
    ∃ n, run o s a integral n w = some (close o s a integral w.defs w.pending) := by
  induction hl : w.left o using WellFoundedLT.induction generalizing w with
  | ind l ih =>
    rw [close_turn]
    cases ht : turn o s a integral w with
    | next w' =>
      obtain ⟨n, hn⟩ := ih _ (hl ▸ left_turn ht) w' rfl
      exact ⟨n + 1, by rw [run, ht]; exact hn⟩
    | result r => exact ⟨1, by rw [run, ht]⟩

end Worklist

end Kinetics

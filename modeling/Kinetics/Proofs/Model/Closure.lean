import Kinetics.Model.Closure
import Kinetics.Proofs.Dict
import Mathlib.Data.List.TakeWhile
import Mathlib.Logic.Relation

/-!
# Kinetics.Proofs.Model.Closure

What closing over a list of variables gives: a definition for each of them, and each definition is
the one that the ontology and the active laws give its variable.
-/

namespace Kinetics

namespace Closure

variable {o : Ontology} {s : Selection} {a : Activation} {integral : String}

/-- Every definition is the one of its variable. -/
def Justified (o : Ontology) (s : Selection) (a : Activation) (integral : String)
    (defs : Dict String Definition) : Prop :=
  ∀ name d, defs.find? name = some d →
    ∃ v, o.variableOf name = .ok v ∧ definitionOf o s a integral name v = .ok d

theorem Justified.insert {defs : Dict String Definition} {name : String} {v : Variable}
    {d : Definition} (h : Justified o s a integral defs) (hv : o.variableOf name = .ok v)
    (hd : definitionOf o s a integral name v = .ok d) :
    Justified o s a integral (defs.insert name d) := by
  intro other e he
  rw [Dict.find?_insert] at he
  split at he
  · rename_i hc
    cases Std.LawfulEqOrd.eq_of_compare hc
    cases he
    exact ⟨v, hv, hd⟩
  · exact h other e he

theorem contains_of_dropWhile {defs : Dict String Definition} {pending rest : List String}
    {name : String} (h : pending.dropWhile defs.contains = rest) (hm : name ∈ pending) :
    defs.contains name = true ∨ name ∈ rest := by
  rw [← List.takeWhile_append_dropWhile (p := defs.contains) (l := pending), h] at hm
  rcases List.mem_append.1 hm with hm | hm
  · exact .inl (List.mem_takeWhile_imp hm)
  · exact .inr hm

/-- One step of closing: nothing is left to define, or the first variable left is defined, and the
inputs of its laws are put in front. -/
theorem close_step {defs out : Dict String Definition} {pending : List String}
    (h : close o s a integral defs pending = .ok out) :
    (pending.dropWhile defs.contains = [] ∧ out = defs) ∨
      ∃ name rest v d inputs, pending.dropWhile defs.contains = name :: rest ∧
        o.variableOf name = .ok v ∧ definitionOf o s a integral name v = .ok d ∧
        a.inputsOf o s d.laws = .ok inputs ∧
        close o s a integral (defs.insert name d) (inputs.reverse ++ rest) = .ok out := by
  rw [close] at h
  split at h
  · rename_i hp
    cases h
    exact .inl ⟨hp, rfl⟩
  · rename_i name rest hp
    split at h
    · cases h
    · rename_i v hv
      split at h
      · cases h
      · rename_i d hd
        split at h
        · cases h
        · rename_i inputs hi
          exact .inr ⟨name, rest, v, d, inputs, hp, hv, hd, hi, h⟩

/-- What holds at the start, and is kept when defined variables are passed over and when a variable
is defined, holds at the end, with nothing left to define. -/
theorem close_invariant {P : Dict String Definition → List String → Prop}
    {defs out : Dict String Definition} {pending : List String}
    (hpass : ∀ defs pending, P defs pending → P defs (pending.dropWhile defs.contains))
    (hdefine : ∀ defs name rest v d inputs, P defs (name :: rest) → defs.contains name = false →
      o.variableOf name = .ok v → definitionOf o s a integral name v = .ok d →
      a.inputsOf o s d.laws = .ok inputs → P (defs.insert name d) (inputs.reverse ++ rest))
    (hstart : P defs pending) (h : close o s a integral defs pending = .ok out) : P out [] := by
  -- each step leaves fewer variables of the ontology without a definition
  induction hn : undefinedCount o defs using Nat.strong_induction_on generalizing defs pending with
  | _ n ih =>
    have hnext := hpass defs pending hstart
    rcases close_step h with ⟨hp, rfl⟩ | ⟨name, rest, v, d, inputs, hp, hv, hd, hi, hrest⟩
    · rwa [hp] at hnext
    · rw [hp] at hnext
      have hc := not_contains_of_dropWhile hp
      have hlt := undefinedCount_insert (d := d) hv hc
      exact ih _ (hn ▸ hlt) (hdefine defs name rest v d inputs hnext hc hv hd hi) hrest rfl

/-- A variable is defined or will be. -/
def Covers (defs : Dict String Definition) (pending : List String) (name : String) : Prop :=
  defs.contains name = true ∨ name ∈ pending

theorem Covers.pass {defs : Dict String Definition} {pending : List String} {name : String}
    (h : Covers defs pending name) : Covers defs (pending.dropWhile defs.contains) name := by
  rcases h with h | h
  · exact .inl h
  · exact contains_of_dropWhile rfl h

theorem Covers.define {defs : Dict String Definition} {rest inputs : List String}
    {name other : String} {d : Definition} (h : Covers defs (name :: rest) other) :
    Covers (defs.insert name d) (inputs ++ rest) other := by
  simp only [Covers, Dict.contains_iff, Dict.mem_keys_insert, List.mem_append]
  rcases h with h | h
  · exact .inl (.inr (Dict.contains_iff.1 h))
  · rcases List.mem_cons.1 h with rfl | h
    · exact .inl (.inl rfl)
    · exact .inr (.inr h)

/-- What is pending is defined in the end, and so is what was defined before. -/
theorem close_covers {defs out : Dict String Definition} {pending : List String} {name : String}
    (h : close o s a integral defs pending = .ok out) (hn : Covers defs pending name) :
    out.contains name = true := by
  have hend : Covers out [] name := close_invariant (P := fun defs pending => Covers defs pending name)
    (fun _ _ hc => hc.pass) (fun _ _ _ _ _ _ hc _ _ _ _ => hc.define) hn h
  exact hend.resolve_right List.not_mem_nil

theorem close_justified {defs out : Dict String Definition} {pending : List String}
    (hj : Justified o s a integral defs) (h : close o s a integral defs pending = .ok out) :
    Justified o s a integral out :=
  close_invariant (P := fun defs _ => Justified o s a integral defs) (fun _ _ hj => hj)
    (fun _ _ _ _ _ _ hj _ hv hd _ => hj.insert hv hd) hj h

theorem close_empty_ok {out : Dict String Definition} {pending : List String}
    (h : close o s a integral Dict.empty pending = .ok out) :
    Justified o s a integral out ∧ ∀ name ∈ pending, out.contains name = true := by
  have hnone : Justified o s a integral Dict.empty := by
    intro name d hd
    rw [Dict.find?_empty] at hd
    cases hd
  exact ⟨close_justified hnone h, fun name hm => close_covers h (.inr hm)⟩

/-- The laws of a definition are known, and so are their inputs. -/
theorem close_inputsOf {out : Dict String Definition} {pending : List String} {name : String}
    {d : Definition} (h : close o s a integral Dict.empty pending = .ok out)
    (hd : out.find? name = some d) : ∃ inputs, a.inputsOf o s d.laws = .ok inputs := by
  refine close_invariant (P := fun defs _ => ∀ name d, defs.find? name = some d →
    ∃ inputs, a.inputsOf o s d.laws = .ok inputs) (fun _ _ hp => hp) ?_ ?_ h name d hd
  · intro defs name rest v d inputs hp _ hv hd hi other e he
    by_cases hne : other = name
    · rw [hne, Dict.find?_insert_self] at he
      cases he
      exact ⟨inputs, hi⟩
    · rw [Dict.find?_insert_of_ne hne] at he
      exact hp other e he
  · intro name d hd
    cases hd

/-- A law in the definition of the first variable reads the second one. -/
def Brings (o : Ontology) (s : Selection) (a : Activation) (integral name other : String) : Prop :=
  ∃ v d inputs, o.variableOf name = .ok v ∧ definitionOf o s a integral name v = .ok d ∧
    a.inputsOf o s d.laws = .ok inputs ∧ other ∈ inputs

theorem close_brings {out : Dict String Definition} {pending : List String} {name other : String}
    (h : close o s a integral Dict.empty pending = .ok out) (hn : out.contains name = true)
    (hb : Brings o s a integral name other) : out.contains other = true := by
  have hend := close_invariant (P := fun defs pending => ∀ name other, defs.contains name = true →
    Brings o s a integral name other → Covers defs pending other) ?_ ?_ ?_ h
  · exact (hend name other hn hb).resolve_right List.not_mem_nil
  · intro defs pending hc name other hn hb
    exact (hc name other hn hb).pass
  · intro defs name rest v d inputs hc _ hv hd hi n other hn hb
    rw [Dict.contains_iff, Dict.mem_keys_insert, ← Dict.contains_iff] at hn
    rcases hn with rfl | hn
    · obtain ⟨v', d', inputs', hv', hd', hi', hin⟩ := hb
      rw [hv] at hv'
      cases hv'
      rw [hd] at hd'
      cases hd'
      rw [hi] at hi'
      cases hi'
      exact .inr (List.mem_append_left _ (List.mem_reverse.2 hin))
    · exact (hc n other hn hb).define
  · intro name other hn
    cases hn

/-- Closing defines what can be reached from the pending variables through laws, and nothing
else. -/
theorem contains_close {out : Dict String Definition} {pending : List String} {name : String}
    (h : close o s a integral Dict.empty pending = .ok out) :
    out.contains name = true ↔
      ∃ root ∈ pending, Relation.ReflTransGen (Brings o s a integral) root name := by
  constructor
  · intro hn
    have hend := close_invariant (P := fun defs left => ∀ name, Covers defs left name →
      ∃ root ∈ pending, Relation.ReflTransGen (Brings o s a integral) root name) ?_ ?_ ?_ h
    · exact hend name (.inl hn)
    · rintro defs left hr n (hn | hn)
      · exact hr n (.inl hn)
      · exact hr n (.inr (List.dropWhile_subset _ hn))
    · rintro defs next rest v d inputs hr _ hv hd hi n hn
      have hnext := hr next (.inr List.mem_cons_self)
      simp only [Covers, Dict.contains_iff, Dict.mem_keys_insert, List.mem_append,
        List.mem_reverse] at hn
      rcases hn with (rfl | hn) | hn | hn
      · exact hnext
      · exact hr n (.inl (Dict.contains_iff.2 hn))
      · obtain ⟨root, hroot, hpath⟩ := hnext
        exact ⟨root, hroot, hpath.tail ⟨v, d, inputs, hv, hd, hi, hn⟩⟩
      · exact hr n (.inr (List.mem_cons_of_mem _ hn))
    · rintro n (hn | hn)
      · cases hn
      · exact ⟨n, hn, .refl⟩
  · rintro ⟨root, hroot, hpath⟩
    induction hpath with
    | refl => exact close_covers h (.inr hroot)
    | tail _ hb ih => exact close_brings h ih hb

end Closure

end Kinetics

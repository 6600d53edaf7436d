import Kinetics.Proofs.Growth.Basic
import Kinetics.Proofs.Model.Resolve
import Kinetics.Proofs.Model.Worklist

/-!
# Kinetics.Proofs.Growth.Model

A model stays the same when its ontology grows. What is switched on is the same, law by law; the
closure takes the same turns, for it only looks up names that the old ontology has; and whatever
comes after it takes its names from there.
-/

namespace Kinetics

namespace Ontology.Extends

open Activation Closure Model

variable {s : Selection} {o o' : Ontology} {t : Topology} {a b : Activation} {name : String}
  {names : List String} {xs : List (String × Law)} (h : o.Extends s o')
include h

section Switching

theorem activate_eq {law law' : Law} (hl : o.laws.find? name = some law') :
    a.activate o' name law = a.activate o name law := by
  simp only [activate, h.target_eq hl]

/-- Switching on laws of the old ontology asks only for their claimants. -/
theorem activateAll_eq (hx : ∀ x ∈ xs, o.laws.find? x.1 = some x.2) :
    a.activateAll o' xs = a.activateAll o xs := by
  induction xs generalizing a with
  | nil => rfl
  | cons x xs ih =>
    obtain ⟨hx, hxs⟩ := List.forall_mem_cons.1 hx
    simp only [activateAll, h.activate_eq hx, ih hxs]

theorem activateFlow_eq {joint : Option String} (hx : ∀ x ∈ xs, o.laws.find? x.1 = some x.2) :
    a.activateFlow o' joint xs = a.activateFlow o joint xs := by
  induction xs generalizing a joint with
  | nil => rfl
  | cons x xs ih =>
    obtain ⟨hx, hxs⟩ := List.forall_mem_cons.1 hx
    simp only [activateFlow, h.activate_eq hx, ih hxs]

theorem activateReaction_eq {position : Nat} (hx : ∀ x ∈ xs, o.laws.find? x.1 = some x.2) :
    activateReaction o' position a xs = activateReaction o position a xs := by
  induction xs generalizing a with
  | nil => rfl
  | cons x xs ih =>
    obtain ⟨hx, hxs⟩ := List.forall_mem_cons.1 hx
    simp only [activateReaction, h.activate_eq hx, ih hxs]

theorem activateReactions_eq {rs : List (Reaction × Nat)} :
    a.activateReactions o' s rs = a.activateReactions o s rs := by
  induction rs generalizing a with
  | nil => rfl
  | cons r rs ih =>
    simp only [activateReactions, h.lawsOf_eq s.mentions_reaction,
      h.activateReaction_eq fun x hx => (mem_lawsOf.1 hx).1, ih]

theorem activatePhase_ok {k : Phase} {transport : List (String × Law)} {states : List StateEquation}
    (ha : a.activatePhase o t transport k = .ok (b, states)) :
    a.activatePhase o' t transport k = .ok (b, states) := by
  simp only [activatePhase] at ha ⊢
  split at ha
  · cases ha
  · exact ha
  · split at ha
    · rename_i hk
      split at ha
      · cases ha
      · rename_i law hl
        rw [if_pos hk, h.lawOf hl]
        rwa [← h.activate_eq (lawOf_ok.1 hl)] at ha
    · rename_i hk
      rwa [if_neg hk]

theorem accumulationOf_eq : accumulationOf o' s = accumulationOf o s := by
  simp only [accumulationOf, h.lawsOf_eq s.mentions_accumulation]

theorem activated_ok {acc : Accumulation} {r : Activated} (hacc : accumulationOf o s = .ok acc)
    (hr : activated o s t acc = .ok r) : activated o' s t acc = .ok r := by
  have hknown {ps : List String} : ∀ x ∈ lawsOf o ps, o.laws.find? x.1 = some x.2 := fun x hx =>
    (mem_lawsOf.1 hx).1
  obtain ⟨hmain, -⟩ := (mem_accumulation hacc).2 ⟨rfl, rfl⟩
  simp only [activated, bind_ok, pure_ok] at hr ⊢
  rw [h.lawsOf_eq s.mentions_flowPattern, h.lawsOf_eq s.mentions_transport,
    h.lawsOf_eq s.mentions_equilibrium]
  obtain ⟨a₁, h₁, a₂, h₂, a₃, h₃, a₄, h₄, a₅, h₅, a₆, h₆, a₇, h₇, rfl⟩ := hr
  exact ⟨a₁, (h.activate_eq hmain).trans h₁, a₂, (h.activateFlow_eq hknown).trans h₂,
    a₃, (h.activateAll_eq hknown).trans h₃, a₄, (h.activateAll_eq hknown).trans h₄,
    a₅, h.activateReactions_eq.trans h₅, a₆, h.activatePhase_ok h₆, a₇, h.activatePhase_ok h₇, rfl⟩

end Switching

section Closing

variable {integral : String} {d : Definition} {v : Variable} {defs : Dict String Definition}

theorem inputsOf_ok {inputs : List String} (hi : a.inputsOf o s names = .ok inputs) :
    a.inputsOf o' s names = .ok inputs := by
  induction names generalizing inputs with
  | nil => exact hi
  | cons name names ih =>
    simp only [inputsOf] at hi ⊢
    split at hi
    · cases hi
    · rename_i law hl
      split at hi
      · cases hi
      · rename_i rest hrest
        rw [h.lawOf hl, ih hrest]
        exact hi

theorem definitionalOf_ok {laws : List String} (hl : definitionalOf o names = .ok laws) :
    definitionalOf o' names = .ok laws := by
  induction names generalizing laws with
  | nil => exact hl
  | cons name names ih =>
    simp only [definitionalOf] at hl ⊢
    split at hl
    · cases hl
    · rename_i law hlaw
      split at hl
      · cases hl
      · rename_i rest hrest
        rw [h.lawOf hlaw, ih hrest]
        exact hl

theorem defineByDefault_ok (hd : defineByDefault o name v = .ok d) :
    defineByDefault o' name v = .ok d := by
  simp only [defineByDefault] at hd ⊢
  cases hl : definitionalOf o v.laws.toList with
  | error e =>
    rw [hl] at hd
    cases hd
  | ok laws =>
    rw [hl] at hd
    rw [h.definitionalOf_ok hl]
    exact hd

theorem defineByOverride_ok {law : String} (hd : defineByOverride o name v law = .ok d) :
    defineByOverride o' name v law = .ok d := by
  simp only [defineByOverride] at hd ⊢
  split at hd
  · rename_i hc
    split at hd
    · cases hd
    · rename_i hl
      rw [if_pos hc, h.lawOf hl]
      exact hd
  · cases hd

theorem define_ok (hd : define o s a name v = .ok d) : define o' s a name v = .ok d := by
  revert hd
  simp only [define]
  cases a.stateLaws.find? name with
  | some law => exact id
  | none =>
    by_cases hr : v.role = .constant
    · simp only [hr, if_true]
      exact id
    · simp only [hr, if_false]
      cases s.overrides.find? name with
      | some law => exact h.defineByOverride_ok
      | none =>
        cases a.targets.find? name with
        | some laws => exact id
        | none => exact h.defineByDefault_ok

theorem definitionOf_ok (hd : definitionOf o s a integral name v = .ok d) :
    definitionOf o' s a integral name v = .ok d := by
  rw [definitionOf] at hd ⊢
  split at hd
  · rename_i hn
    rwa [if_pos hn]
  · rename_i hn
    rw [if_neg hn]
    exact h.define_ok hd

/-- Closing takes the same turns over both ontologies. -/
theorem close_ok {pending : List String} {out : Dict String Definition}
    (hc : close o s a integral defs pending = .ok out) :
    close o' s a integral defs pending = .ok out := by
  have hend := close_invariant (P := fun defs' left =>
    close o' s a integral defs pending = close o' s a integral defs' left) ?_ ?_ rfl hc
  · rw [hend]
    exact Worklist.close_of_nil rfl
  · intro defs' left heq
    rw [heq, Worklist.close_dropWhile]
  · intro defs' name rest v d inputs heq hnew hv hd hi
    rw [heq, Worklist.close_of_cons (List.dropWhile_cons_of_neg (by simp [hnew]))]
    simp only [h.variableOf hv, h.definitionOf_ok hd, h.inputsOf_ok hi]

theorem seedsOf_ok {seeds : List String} (hs : seedsOf o s a names = .ok seeds) :
    seedsOf o' s a names = .ok seeds := by
  induction names generalizing seeds with
  | nil => exact hs
  | cons name names ih =>
    simp only [seedsOf] at hs ⊢
    split at hs
    · cases hs
    · rename_i law hl
      split at hs
      · cases hs
      · rename_i rest hrest
        rw [h.lawOf hl, ih hrest]
        exact hs

theorem seeds_ok {acc : Accumulation} {pending : List String}
    (hs : seeds o s acc a = .ok pending) : seeds o' s acc a = .ok pending := by
  simp only [seeds] at hs ⊢
  split at hs
  · cases hs
  · rename_i laws hl
    rw [h.seedsOf_ok hl]
    exact hs

theorem dependenciesOf_ok {names : NameSet} (hn : dependenciesOf o s a defs d = .ok names) :
    dependenciesOf o' s a defs d = .ok names := by
  simp only [dependenciesOf] at hn ⊢
  split at hn
  · cases hn
  · rename_i inputs hi
    rw [h.inputsOf_ok hi]
    exact hn

theorem dependencies_ok {ds : List (String × Definition)} {deps : Dict String NameSet}
    (hd : dependencies o s a defs ds = .ok deps) : dependencies o' s a defs ds = .ok deps := by
  induction ds generalizing deps with
  | nil => exact hd
  | cons e ds ih =>
    simp only [dependencies] at hd ⊢
    split at hd
    · rename_i hc
      rw [if_pos hc]
      split at hd
      · cases hd
      · rename_i names hn
        split at hd
        · cases hd
        · rename_i rest hrest
          rw [h.dependenciesOf_ok hn, ih hrest]
          exact hd
    · rename_i hc
      rw [if_neg hc]
      exact ih hd

end Closing

/-- Where there is a model, it is the same over the larger ontology. -/
theorem resolve_ok {m : Model} (hm : resolve o s t = .ok m) : resolve o' s t = .ok m := by
  simp only [resolve, bind_ok] at hm ⊢
  obtain ⟨acc, hacc, r, hr, pending, hp, defs, hd, deps, hdeps, hrest⟩ := hm
  exact ⟨acc, h.accumulationOf_eq.trans hacc, r, h.activated_ok hacc hr, pending, h.seeds_ok hp,
    defs, h.close_ok hd, deps, h.dependencies_ok hdeps, hrest⟩

/-- No law comes to describe a selected phenomenon that none did. -/
theorem unmatched_model_eq : Model.unmatched o' s t = Model.unmatched o s t := by
  simp only [Model.unmatched, h.unmatched_eq s.mentions_accumulation,
    h.unmatched_eq s.mentions_flowPattern, h.unmatched_eq s.mentions_transport,
    h.unmatched_eq s.mentions_equilibrium, h.unmatched_eq s.mentions_reaction]

end Ontology.Extends

end Kinetics

import Kinetics.Proofs.Model.Switching

/-!
# Kinetics.Proofs.Growth.Basic

Ontologies that grow. New variables claim no law of the old ontology, new laws are definitional or
of phenomena that are not selected, and no old variable is in a new unit. Whatever an old name
stands for stays as it is, and the scans of the whole ontology, for laws of a phenomenon and for
claimants of a law, come upon nothing new.
-/

namespace Kinetics

namespace Selection

/-- The phenomenon is among the selected ones, for whatever reaction. A choice left open is the empty
name. -/
def Mentions (s : Selection) (p : String) : Prop :=
  p = s.accumulation ∨ p = s.flowPattern ∨ p ∈ s.transport ∨ p ∈ s.equilibrium ∨
    ∃ r ps, s.reactionPhenomena.find? r = some ps ∧ p ∈ ps

variable (s : Selection)

theorem mentions_accumulation : ∀ p ∈ [s.accumulation], s.Mentions p :=
  fun _ hp => .inl (List.mem_singleton.1 hp)

theorem mentions_flowPattern : ∀ p ∈ [s.flowPattern], s.Mentions p :=
  fun _ hp => .inr (.inl (List.mem_singleton.1 hp))

theorem mentions_transport : ∀ p ∈ s.transport, s.Mentions p :=
  fun _ hp => .inr (.inr (.inl hp))

theorem mentions_equilibrium : ∀ p ∈ s.equilibrium, s.Mentions p :=
  fun _ hp => .inr (.inr (.inr (.inl hp)))

theorem mentions_reaction {text : String} :
    ∀ p ∈ (s.reactionPhenomena.find? text).getD [], s.Mentions p := by
  intro p hp
  cases hr : s.reactionPhenomena.find? text with
  | none =>
    rw [hr] at hp
    cases hp
  | some ps =>
    rw [hr] at hp
    exact .inr (.inr (.inr (.inr ⟨text, ps, hr, hp⟩)))

end Selection

namespace Ontology

/-- The second ontology has all entries of the first one, and new ones besides. -/
structure Extends (s : Selection) (o o' : Ontology) : Prop where
  quantities : ∀ name v, o.quantities.find? name = some v → o'.quantities.find? name = some v
  laws : ∀ name law, o.laws.find? name = some law → o'.laws.find? name = some law
  units : ∀ name u, o.units.find? name = some u → o'.units.find? name = some u
  newQuantities : ∀ name v law, o'.quantities.find? name = some v →
    o.quantities.find? name = none → Dict.contains v.laws law = true → o.laws.find? law = none
  newLaws : ∀ name law p, o'.laws.find? name = some law → o.laws.find? name = none →
    law.phenomenon = some p → ¬s.Mentions p
  newUnits : ∀ unit name v, o'.units.contains unit = true → o.units.find? unit = none →
    o.quantities.find? name = some v → v.unit ≠ some unit

namespace Extends

open Activation

variable {s : Selection} {o o' : Ontology} {name : String} {ps : List String} (h : o.Extends s o')
include h

theorem variableOf {v : Variable} (hv : o.variableOf name = .ok v) : o'.variableOf name = .ok v :=
  variableOf_ok.2 (h.quantities name v (variableOf_ok.1 hv))

theorem lawOf {law : Law} (hl : o.lawOf name = .ok law) : o'.lawOf name = .ok law :=
  lawOf_ok.2 (h.laws name law (lawOf_ok.1 hl))

/-- A unit that a variable names is no new one. -/
theorem unitOf_eq {v : Variable} (hv : o.variableOf name = .ok v) : o'.unitOf v = o.unitOf v := by
  unfold unitOf
  cases hu : v.unit with
  | none => rfl
  | some unit =>
    rw [Option.bind_some, Option.bind_some]
    cases hold : o.units.find? unit with
    | some u => exact h.units unit u hold
    | none =>
      cases hnew : o'.units.find? unit with
      | none => rfl
      | some u =>
        have hin : o'.units.contains unit = true := by rw [Dict.contains, hnew, Option.isSome_some]
        exact absurd hu (h.newUnits unit name v hin hold (variableOf_ok.1 hv))

/-- A law of a selected phenomenon is no new one. -/
theorem law_of_mentions {law : Law} {p : String} (hl : o'.laws.find? name = some law)
    (hp : law.phenomenon = some p) (hs : s.Mentions p) : o.laws.find? name = some law := by
  cases hold : o.laws.find? name with
  | none => exact absurd hs (h.newLaws name law p hl hold hp)
  | some law' =>
    rw [h.laws name law' hold] at hl
    exact hl

theorem lawsOf_eq (hps : ∀ p ∈ ps, s.Mentions p) : lawsOf o' ps = lawsOf o ps := by
  refine Dict.filter_entries_eq fun ⟨name, law⟩ => ?_
  simp only [← Dict.find?_eq_some_iff, Option.any_eq_true, List.contains_iff_mem]
  constructor
  · rintro ⟨hl, p, hp, hin⟩
    exact ⟨h.law_of_mentions hl hp (hps p hin), p, hp, hin⟩
  · rintro ⟨hl, p, hp, hin⟩
    exact ⟨h.laws name law hl, p, hp, hin⟩

/-- A law of the old ontology is claimed by no new variable. -/
theorem claimants_eq {law : Law} (hl : o.laws.find? name = some law) :
    claimants o' name = claimants o name := by
  unfold claimants
  refine congrArg (List.map Prod.fst) (Dict.filter_entries_eq fun ⟨n, v⟩ => ?_)
  simp only [← Dict.find?_eq_some_iff]
  constructor
  · rintro ⟨hv, hc⟩
    refine ⟨?_, hc⟩
    cases hold : o.quantities.find? n with
    | none =>
      cases hl.symm.trans (h.newQuantities n v name hv hold hc)
    | some v' =>
      rw [h.quantities n v' hold] at hv
      exact hv
  · rintro ⟨hv, hc⟩
    exact ⟨h.quantities n v hv, hc⟩

theorem target_eq {law : Law} (hl : o.laws.find? name = some law) :
    target o' name = target o name := by
  rw [target, target, h.claimants_eq hl]

theorem unmatched_eq (hps : ∀ p ∈ ps, s.Mentions p) : unmatched o' ps = unmatched o ps := by
  have hlaw {o : Ontology} {p : String} : (o.laws.values.any fun l => l.phenomenon == some p) = true ↔
      ∃ name law, o.laws.find? name = some law ∧ law.phenomenon = some p := by
    simp only [Dict.values, List.any_map, List.any_eq_true, Function.comp_apply, beq_iff_eq,
      Prod.exists, Dict.find?_eq_some_iff]
  refine List.filter_congr fun p hp => congrArg (!p.isEmpty && !·) (Bool.eq_iff_iff.2 ?_)
  rw [hlaw, hlaw]
  constructor
  · rintro ⟨name, law, hl, hphenomenon⟩
    exact ⟨name, law, h.law_of_mentions hl hphenomenon (hps p hp), hphenomenon⟩
  · rintro ⟨name, law, hl, hphenomenon⟩
    exact ⟨name, law, h.laws name law hl, hphenomenon⟩

end Extends

end Ontology

end Kinetics

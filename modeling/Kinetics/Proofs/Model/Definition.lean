import Kinetics.Model.Closure
import Kinetics.Proofs.Dict

/-!
# Kinetics.Proofs.Model.Definition

Where the laws of a definition come from. A variable is defined by the law that integrates it, by
an override, by the active laws that target it, or by the definitional law that it claims.
-/

namespace Kinetics

namespace Closure

variable {o : Ontology} {s : Selection} {a : Activation} {integral name l : String} {v : Variable}
  {d : Definition}

/-- The ways in which a law comes to define a variable. -/
inductive Source (o : Ontology) (s : Selection) (a : Activation) (name : String) (v : Variable) :
    Definition → String → Prop where
  | state {l : String} : a.stateLaws.find? name = some l → Source o s a name v (.state l) l
  | override {l : String} : s.overrides.find? name = some l → Dict.contains v.laws l = true →
      Source o s a name v (.derived l) l
  | target {d : Definition} {l : String} {laws : NameSet} : a.targets.find? name = some laws →
      l ∈ laws.toList → d.isComputed = true → Source o s a name v d l
  | default {l : String} {law : Law} : o.laws.find? l = some law → law.isDefinitional = true →
      Dict.contains v.laws l = true → Source o s a name v (.derived l) l

theorem mem_laws_perReaction {laws : List (Nat × String)} :
    l ∈ (Definition.perReaction (Dict.ofList laws)).laws → l ∈ laws.map Prod.snd := by
  have hin : ∀ (d : Dict Nat String), l ∈ (laws.foldl (fun d e => d.insert e.1 e.2) d).values →
      l ∈ d.values ∨ l ∈ laws.map Prod.snd := by
    intro d hd
    induction laws generalizing d with
    | nil => exact .inl hd
    | cons e es ih =>
      rcases ih (d.insert e.1 e.2) hd with h | h
      · obtain ⟨e', he', rfl⟩ := List.mem_map.1 h
        rcases mem_insertEntry he' with rfl | he'
        · exact .inr List.mem_cons_self
        · exact .inl (List.mem_map_of_mem he')
      · exact .inr (List.mem_cons_of_mem _ h)
  intro h
  rw [Definition.laws, OrderedSet.mem_toList_ofList] at h
  exact (hin Dict.empty h).resolve_left List.not_mem_nil

/-- The law chosen for a reaction is one of those that target the variable. -/
theorem mem_reactionLawsOf {laws : NameSet} {rs : List (Nat × NameSet)}
    {chosen : List (Nat × String)} (h : reactionLawsOf name laws rs = .ok chosen)
    (hl : l ∈ chosen.map Prod.snd) : l ∈ laws.toList := by
  induction rs generalizing chosen with
  | nil =>
    cases h
    cases hl
  | cons r rs ih =>
    obtain ⟨position, active⟩ := r
    simp only [reactionLawsOf] at h
    split at h
    · exact ih h hl
    · rename_i law hc
      split at h
      · cases h
      · rename_i rest hrest
        cases h
        rcases List.mem_cons.1 hl with rfl | hl
        · have hm : l ∈ active.common laws := hc ▸ List.mem_singleton_self l
          exact Dict.contains_iff.1 (List.mem_filter.1 hm).2
        · exact ih hrest hl
    · cases h

theorem defineByTargets_ok {laws : NameSet} (h : defineByTargets a name v laws = .ok d) :
    d.isComputed = true ∧ ∀ l ∈ d.laws, l ∈ laws.toList := by
  simp only [defineByTargets] at h
  split at h
  · cases h
  · rename_i chosen hchosen
    split at h
    · rename_i law hothers
      cases h
      have hm : law ∈ laws.toList := by
        have : law ∈ laws.toList.filter _ := hothers ▸ List.mem_singleton_self law
        exact (List.mem_filter.1 this).1
      exact ⟨rfl, fun l hl => List.mem_singleton.1 hl ▸ hm⟩
    · split at h
      · cases h
      · split at h
        · cases h
          exact ⟨rfl, fun l hl => mem_reactionLawsOf hchosen (mem_laws_perReaction hl)⟩
        · split at h
          · rename_i law hlaw
            cases h
            have hm := OrderedSet.mem_toList_ofList.1 (hlaw ▸ List.mem_singleton_self law)
            exact ⟨rfl, fun l hl => List.mem_singleton.1 hl ▸ mem_reactionLawsOf hchosen hm⟩
          · cases h
    · cases h

theorem mem_definitionalOf {names laws : List String} (h : definitionalOf o names = .ok laws)
    (hl : l ∈ laws) : l ∈ names ∧ ∃ law, o.laws.find? l = some law ∧ law.isDefinitional = true := by
  induction names generalizing laws with
  | nil =>
    cases h
    cases hl
  | cons name names ih =>
    simp only [definitionalOf] at h
    split at h
    · cases h
    · rename_i law hlaw
      split at h
      · cases h
      · rename_i rest hrest
        cases h
        split at hl
        · rename_i hd
          rcases List.mem_cons.1 hl with rfl | hl
          · exact ⟨List.mem_cons_self, law, Ontology.lawOf_ok.1 hlaw, hd⟩
          · exact (ih hrest hl).imp_left (List.mem_cons_of_mem _)
        · exact (ih hrest hl).imp_left (List.mem_cons_of_mem _)

theorem source_of_define (h : define o s a name v = .ok d) (hl : l ∈ d.laws) :
    Source o s a name v d l := by
  simp only [define] at h
  split at h
  · rename_i law hlaw
    cases h
    cases List.mem_singleton.1 hl
    exact .state hlaw
  · split at h
    · cases h
      cases hl
    · split at h
      · rename_i law hlaw
        simp only [defineByOverride] at h
        split at h
        · rename_i hc
          split at h
          · cases h
          · cases h
            cases List.mem_singleton.1 hl
            exact .override hlaw hc
        · cases h
      · split at h
        · rename_i laws hlaws
          obtain ⟨hd, hm⟩ := defineByTargets_ok h
          exact .target hlaws (hm l hl) hd
        · simp only [defineByDefault] at h
          split at h
          · cases h
          · cases h
            cases hl
          · rename_i law hlaw
            cases h
            cases List.mem_singleton.1 hl
            obtain ⟨hm, law, hf, hd⟩ := mem_definitionalOf hlaw (List.mem_singleton_self l)
            exact .default hf hd (Dict.contains_iff.2 hm)
          · cases h

/-- A law in the definition of a variable comes to it in one of the four ways. -/
theorem source_of_definitionOf (h : definitionOf o s a integral name v = .ok d)
    (hl : l ∈ d.laws) : Source o s a name v d l := by
  rw [definitionOf] at h
  split at h
  · cases h
    cases hl
  · exact source_of_define h hl

/-- A variable is a state if some law integrates it, unless it is what is integrated over. -/
theorem definitionOf_state : definitionOf o s a integral name v = .ok (.state l) ↔
    name ≠ integral ∧ a.stateLaws.find? name = some l := by
  constructor
  · intro h
    refine ⟨?_, ?_⟩
    · rintro rfl
      rw [definitionOf, if_pos rfl] at h
      cases h
    · cases source_of_definitionOf h (List.mem_singleton_self l) with
      | state hl => exact hl
      | target _ _ hd => cases hd
  · rintro ⟨hne, hl⟩
    rw [definitionOf, if_neg hne, define, hl]

end Closure

end Kinetics

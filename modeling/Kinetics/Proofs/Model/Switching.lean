import Kinetics.Model.Resolve
import Kinetics.Proofs.Dict
import Kinetics.Proofs.Fallible

/-!
# Kinetics.Proofs.Model.Switching

Which laws a selection switches on, told by the ontology alone: those of a selected phenomenon, and
those that come with a transport law for a phase of the plant. However a law is switched on, what
an activation keeps of it is the same, so an activation is told by the list of its laws.
-/

namespace Kinetics

/-- The phenomenon is selected for the plant, or for one of its reactions. -/
def Selection.Includes (s : Selection) (t : Topology) (p : String) : Prop :=
  p = s.accumulation ∨ p = s.flowPattern ∨ p ∈ s.transport ∨ p ∈ s.equilibrium ∨
    ∃ r ∈ t.reactions, ∃ ps, s.reactionPhenomena.find? r.text = some ps ∧ p ∈ ps

namespace Ontology

/-- The variable claims the law. -/
def Claims (o : Ontology) (name law : String) : Prop :=
  ∃ v, o.quantities.find? name = some v ∧ Dict.contains v.laws law = true

/-- The law comes with a transport law for a phase of the plant. -/
def Accompanies (o : Ontology) (s : Selection) (t : Topology) (k : Phase) (name : String) : Prop :=
  t.hasPhase k = true ∧ ∃ carrier law p, o.laws.find? carrier = some law ∧
    law.phenomenon = some p ∧ p ∈ s.transport ∧ law.associated k = some name

/-- The law is selected for one of the reactions. -/
def Drives (o : Ontology) (s : Selection) (t : Topology) (name : String) : Prop :=
  ∃ r ∈ t.reactions, ∃ ps, s.reactionPhenomena.find? r.text = some ps ∧
    ∃ law p, o.laws.find? name = some law ∧ law.phenomenon = some p ∧ p ∈ ps

/-- The law is switched on, by its phenomenon or for a phase. -/
def SwitchesOn (o : Ontology) (s : Selection) (t : Topology) (name : String) (law : Law) : Prop :=
  o.laws.find? name = some law ∧
    ((∃ p, law.phenomenon = some p ∧ s.Includes t p) ∨ ∃ k, o.Accompanies s t k name)

end Ontology

namespace Activation

variable {o : Ontology} {s : Selection} {t : Topology} {a b : Activation} {name : String}
  {law : Law} {ls xs : List (String × Law)} {notes : List (Nat × String)}

theorem mem_lawsOf {ps : List String} :
    (name, law) ∈ lawsOf o ps ↔
      o.laws.find? name = some law ∧ ∃ p, law.phenomenon = some p ∧ p ∈ ps := by
  simp only [lawsOf, List.mem_filter, Dict.find?_eq_some_iff, Option.any_eq_true,
    List.contains_iff_mem]

theorem mem_claimants {v : String} : v ∈ claimants o name ↔ o.Claims v name := by
  simp only [claimants, List.mem_map, List.mem_filter, Ontology.Claims, Dict.find?_eq_some_iff]
  constructor
  · rintro ⟨e, he, rfl⟩
    exact ⟨e.2, he⟩
  · rintro ⟨x, hx⟩
    exact ⟨(v, x), hx, rfl⟩

theorem nodup_claimants : (claimants o name).Nodup :=
  Dict.nodup_keys.sublist (List.filter_sublist.map Prod.fst)

section Named

variable {κ : Type} [Ord κ]

/-- The set of a key has the name. -/
def Names (d : Dict κ NameSet) (k : κ) (name : String) : Prop :=
  ∃ names, d.find? k = some names ∧ name ∈ names.toList

/-- No set is empty. -/
def Filled (d : Dict κ NameSet) : Prop :=
  ∀ k, d.contains k = true → ∃ name, Names d k name

theorem filled_empty : Filled (Dict.empty : Dict κ NameSet) := by
  intro k hk
  cases hk

variable [Std.TransOrd κ] [Std.LawfulEqOrd κ] {d : Dict κ NameSet} {j k : κ}

theorem names_addTo {n : String} : Names (addTo d k name) j n ↔ (j = k ∧ n = name) ∨ Names d j n := by
  unfold addTo
  by_cases hj : j = k
  · subst hj
    simp only [Names, Dict.find?_insert_self, Option.some.injEq, exists_eq_left',
      OrderedSet.mem_toList_add]
    cases d.find? j with
    | none => simp [OrderedSet.toList, Dict.keys, Dict.empty]
    | some names => simp
  · simp only [Names, Dict.find?_insert_of_ne hj, hj, false_and, false_or]

theorem Filled.addTo (h : Filled d) : Filled (addTo d k name) := by
  intro j hj
  rw [Dict.contains_iff, Activation.addTo, Dict.mem_keys_insert, ← Dict.contains_iff] at hj
  rcases hj with rfl | hj
  · exact ⟨name, names_addTo.2 (.inl ⟨rfl, rfl⟩)⟩
  · obtain ⟨n, hn⟩ := h j hj
    exact ⟨n, names_addTo.2 (.inr hn)⟩

end Named

/-- A law of the list integrates the variable. -/
def IntegratedBy (ls : List (String × Law)) (v l : String) : Prop :=
  ∃ law, (l, law) ∈ ls ∧ law.differentialVariable = some v

/-- A law of the list that integrates nothing has the variable as its target. -/
def TargetedBy (o : Ontology) (ls : List (String × Law)) (v l : String) : Prop :=
  ∃ law, (l, law) ∈ ls ∧ law.differentialVariable = none ∧ claimants o l = [v]

/-- A law that integrates nothing has one target, or none if it is integrated jointly. -/
def Targeted (o : Ontology) (l : String) (law : Law) : Prop :=
  law.differentialVariable = none →
    (∃ v, claimants o l = [v]) ∨ (claimants o l = [] ∧ law.jointFormula.isSome = true)

theorem integratedBy_concat {v l : String} : IntegratedBy (ls ++ [(name, law)]) v l ↔
    IntegratedBy ls v l ∨ (l = name ∧ law.differentialVariable = some v) := by
  simp only [IntegratedBy, List.mem_append, List.mem_singleton, Prod.mk.injEq, or_and_right,
    exists_or, and_assoc, exists_and_left, exists_eq_left]

theorem targetedBy_concat {v l : String} : TargetedBy o (ls ++ [(name, law)]) v l ↔
    TargetedBy o ls v l ∨
      (l = name ∧ law.differentialVariable = none ∧ claimants o l = [v]) := by
  simp only [TargetedBy, List.mem_append, List.mem_singleton, Prod.mk.injEq, or_and_right,
    exists_or, and_assoc, exists_and_left, exists_eq_left]

/-- What an activation keeps of the laws that were switched on, and of those noted by reaction. -/
structure Reflects (o : Ontology) (a : Activation) (ls : List (String × Law))
    (notes : List (Nat × String)) : Prop where
  active : ∀ name, name ∈ a.active.toList ↔ ∃ law, (name, law) ∈ ls
  integrating : ∀ v l, a.stateLaws.find? v = some l → IntegratedBy ls v l
  integrated : ∀ v l, IntegratedBy ls v l → a.stateLaws.contains v = true
  targeting : ∀ v l, Names a.targets v l ↔ TargetedBy o ls v l
  targetsFilled : Filled a.targets
  targeted : ∀ e ∈ ls, Targeted o e.1 e.2
  noted : ∀ position l, Names a.reactionLaws position l ↔ (position, l) ∈ notes
  notesFilled : Filled a.reactionLaws

theorem reflects_initial : Reflects o initial [] [] where
  active := by simp [initial, OrderedSet.toList, Dict.keys, Dict.empty]
  integrating _ _ h := by cases h
  integrated _ _ h := by simp [IntegratedBy] at h
  targeting := by simp [initial, Names, Dict.find?_empty, TargetedBy]
  targetsFilled := filled_empty
  targeted := by simp
  noted := by simp [initial, Names, Dict.find?_empty]
  notesFilled := filled_empty

/-- Switching a law on gives a state or a target, or it only adds the law. -/
theorem activate_cases (h : a.activate o name law = .ok b) :
    (∃ v, law.differentialVariable = some v ∧
      b = { a with active := a.active.add name, stateLaws := a.stateLaws.insert v name }) ∨
    (∃ v, law.differentialVariable = none ∧ claimants o name = [v] ∧
      b = { a with active := a.active.add name, targets := addTo a.targets v name }) ∨
    (law.differentialVariable = none ∧ claimants o name = [] ∧ law.jointFormula.isSome = true ∧
      b = { a with active := a.active.add name }) := by
  simp only [activate, target] at h
  split at h
  · rename_i v hv
    cases h
    exact .inl ⟨v, hv, rfl⟩
  · rename_i hv
    split at h
    · rename_i hc
      split at hc <;> cases hc
      cases h
    · rename_i v hc
      split at hc <;> cases hc
      cases h
      exact .inr (.inl ⟨v, hv, ‹_›, rfl⟩)
    · rename_i hc
      split at hc <;> cases hc
      split at h
      · cases h
        exact .inr (.inr ⟨hv, ‹_›, ‹_›, rfl⟩)
      · cases h

/-- Switching one law on adds it to the list. -/
theorem Reflects.activate (h : Reflects o a ls notes) (ha : a.activate o name law = .ok b) :
    Reflects o b (ls ++ [(name, law)]) notes := by
  have hactive : ∀ n, n ∈ (a.active.add name).toList ↔ ∃ l, (n, l) ∈ ls ++ [(name, law)] := by
    intro n
    simp [OrderedSet.mem_toList_add, h.active, exists_or, or_comm]
  have htargeted : Targeted o name law → ∀ e ∈ ls ++ [(name, law)], Targeted o e.1 e.2 := by
    intro hl e he
    rcases List.mem_append.1 he with he | he
    · exact h.targeted e he
    · cases List.mem_singleton.1 he
      exact hl
  rcases activate_cases ha with ⟨v, hv, rfl⟩ | ⟨v, hv, hc, rfl⟩ | ⟨hv, hc, hj, rfl⟩
  case inl =>
    refine { h with active := hactive, integrating := ?_, integrated := ?_, targeting := ?_,
                    targeted := htargeted (by simp [Targeted, hv]) }
    · intro w l hl
      rw [integratedBy_concat]
      by_cases hw : w = v
      · subst hw
        rw [Dict.find?_insert_self] at hl
        exact .inr ⟨(Option.some.inj hl).symm, hv⟩
      · rw [Dict.find?_insert_of_ne hw] at hl
        exact .inl (h.integrating w l hl)
    · intro w l hl
      rw [Dict.contains_iff, Dict.mem_keys_insert, ← Dict.contains_iff]
      rcases integratedBy_concat.1 hl with hl | ⟨-, hw⟩
      · exact .inr (h.integrated w l hl)
      · exact .inl (Option.some.inj (hw.symm.trans hv))
    · simp [targetedBy_concat, hv, h.targeting]
  case inr.inl =>
    refine { h with active := hactive, integrating := ?_, integrated := ?_, targeting := ?_,
                    targetsFilled := h.targetsFilled.addTo,
                    targeted := htargeted fun _ => .inl ⟨v, hc⟩ }
    · simpa [integratedBy_concat, hv] using h.integrating
    · simpa [integratedBy_concat, hv] using h.integrated
    · intro w l
      rw [names_addTo, targetedBy_concat, h.targeting w l, or_comm]
      refine or_congr_right ⟨?_, ?_⟩
      · rintro ⟨rfl, rfl⟩
        exact ⟨rfl, hv, hc⟩
      · rintro ⟨rfl, -, hw⟩
        rw [hc] at hw
        cases hw
        exact ⟨rfl, rfl⟩
  case inr.inr =>
    refine { h with active := hactive, integrating := ?_, integrated := ?_, targeting := ?_,
                    targeted := htargeted fun _ => .inr ⟨hc, hj⟩ }
    · simpa [integratedBy_concat, hv] using h.integrating
    · simpa [integratedBy_concat, hv] using h.integrated
    · intro w l
      rw [targetedBy_concat, h.targeting w l]
      refine (or_iff_left ?_).symm
      rintro ⟨rfl, -, hw⟩
      rw [hc] at hw
      cases hw

theorem Reflects.activateAll (h : Reflects o a ls notes) (ha : a.activateAll o xs = .ok b) :
    Reflects o b (ls ++ xs) notes := by
  induction xs generalizing a ls with
  | nil =>
    cases ha
    simpa using h
  | cons x xs ih =>
    simp only [Activation.activateAll] at ha
    split at ha
    · cases ha
    · rename_i hx
      simpa using ih (h.activate hx) ha

theorem Reflects.activateFlow {joint joint' : Option String} (h : Reflects o a ls notes)
    (ha : a.activateFlow o joint xs = .ok (b, joint')) : Reflects o b (ls ++ xs) notes := by
  induction xs generalizing a joint ls with
  | nil =>
    cases ha
    simpa using h
  | cons x xs ih =>
    simp only [Activation.activateFlow] at ha
    split at ha
    · cases ha
    · rename_i hx
      split at ha
      · split at ha
        · cases ha
        · simpa using ih (h.activate hx) ha
      · simpa using ih (h.activate hx) ha

/-- Noting a law for a reaction leaves the rest as it is. -/
theorem Reflects.note (h : Reflects o a ls notes) (position : Nat) (name : String) :
    Reflects o { a with reactionLaws := addTo a.reactionLaws position name } ls
      (notes ++ [(position, name)]) :=
  { h with
    noted := by
      intro i l
      simp [names_addTo, h.noted, or_comm]
    notesFilled := h.notesFilled.addTo }

theorem Reflects.activateReaction {position : Nat} (h : Reflects o a ls notes)
    (ha : activateReaction o position a xs = .ok b) :
    Reflects o b (ls ++ xs) (notes ++ xs.map fun x => (position, x.1)) := by
  induction xs generalizing a ls notes with
  | nil =>
    cases ha
    simpa using h
  | cons x xs ih =>
    simp only [Activation.activateReaction] at ha
    split at ha
    · cases ha
    · rename_i hx
      simpa using ih ((h.activate hx).note position x.1) ha

/-- The laws selected for a reaction. -/
def selectedFor (o : Ontology) (s : Selection) (r : Reaction) : List (String × Law) :=
  lawsOf o ((s.reactionPhenomena.find? r.text).getD [])

theorem Reflects.activateReactions {rs : List (Reaction × Nat)} (h : Reflects o a ls notes)
    (ha : a.activateReactions o s rs = .ok b) :
    Reflects o b (ls ++ rs.flatMap fun r => selectedFor o s r.1)
      (notes ++ rs.flatMap fun r => (selectedFor o s r.1).map fun x => (r.2, x.1)) := by
  induction rs generalizing a ls notes with
  | nil =>
    cases ha
    simpa using h
  | cons r rs ih =>
    simp only [Activation.activateReactions] at ha
    split at ha
    · cases ha
    · rename_i hr
      simpa [selectedFor] using ih (h.activateReaction hr) ha

/-- The laws of a phase that the transport laws name, if the plant has the phase. -/
def phaseLaws (o : Ontology) (s : Selection) (t : Topology) (k : Phase) : List (String × Law) :=
  if t.hasPhase k then
    (OrderedSet.ofList ((lawsOf o s.transport).filterMap fun e => e.2.associated k) :
      NameSet).toList.filterMap fun name => (o.laws.find? name).map fun law => (name, law)
  else []

/-- The states that the laws of a phase integrate. -/
def phaseStates (k : Phase) (ls : List (String × Law)) : List StateEquation :=
  ls.filterMap fun e => e.2.differentialVariable.map fun v => ⟨v, e.1, some k⟩

/-- One law of a phase at most is switched on. -/
theorem Reflects.activatePhase {k : Phase} {states : List StateEquation}
    (h : Reflects o a ls notes)
    (ha : a.activatePhase o t (lawsOf o s.transport) k = .ok (b, states)) :
    Reflects o b (ls ++ phaseLaws o s t k) notes ∧ states = phaseStates k (phaseLaws o s t k) ∧
      (phaseLaws o s t k).length ≤ 1 := by
  simp only [Activation.activatePhase, associated] at ha
  split at ha
  · cases ha
  · rename_i hn
    split at hn <;> cases hn
    rename_i hn
    cases ha
    simp [phaseLaws, hn, phaseStates, h]
  · rename_i name hn
    split at hn <;> cases hn
    rename_i hn
    split at ha
    · rename_i hk
      split at ha
      · cases ha
      · rename_i law hl
        rw [Ontology.lawOf_ok] at hl
        split at ha
        · cases ha
        · rename_i hb
          cases ha
          have hlaws : phaseLaws o s t k = [(name, law)] := by simp [phaseLaws, hk, hn, hl]
          rw [hlaws]
          refine ⟨h.activate hb, ?_, Nat.le_refl 1⟩
          cases hd : law.differentialVariable <;> simp [phaseStates, hd]
    · rename_i hk
      cases ha
      simp [phaseLaws, hk, phaseStates, h]

theorem mem_phaseLaws {k : Phase} : (name, law) ∈ phaseLaws o s t k ↔
    o.laws.find? name = some law ∧ o.Accompanies s t k name := by
  unfold phaseLaws Ontology.Accompanies
  split
  · rename_i hk
    simp only [List.mem_filterMap, OrderedSet.mem_toList_ofList, Option.map_eq_some_iff,
      Prod.exists, mem_lawsOf, hk, true_and]
    constructor
    · rintro ⟨n, ⟨carrier, l, ⟨hl, p, hp, hs⟩, hn⟩, law', hlaw, he⟩
      cases he
      exact ⟨hlaw, carrier, l, p, hl, hp, hs, hn⟩
    · rintro ⟨hlaw, carrier, l, p, hl, hp, hs, hn⟩
      exact ⟨name, ⟨carrier, l, ⟨hl, p, hp, hs⟩, hn⟩, law, hlaw, rfl⟩
  · rename_i hk
    simp [hk]

theorem mem_selectedFor {r : Reaction} : (name, law) ∈ selectedFor o s r ↔
    o.laws.find? name = some law ∧ ∃ p, law.phenomenon = some p ∧
      ∃ ps, s.reactionPhenomena.find? r.text = some ps ∧ p ∈ ps := by
  rw [selectedFor, mem_lawsOf]
  cases s.reactionPhenomena.find? r.text <;> simp

/-- The laws that a selection switches on, in order. -/
def switchedOn (o : Ontology) (s : Selection) (t : Topology) : List (String × Law) :=
  lawsOf o [s.accumulation] ++ lawsOf o [s.flowPattern] ++ lawsOf o s.transport ++
    lawsOf o s.equilibrium ++ (t.reactions.zipIdx.flatMap fun r => selectedFor o s r.1) ++
    phaseLaws o s t .gas ++ phaseLaws o s t .solid

/-- The laws noted for reactions, by position of the reaction. -/
def reactionNotes (o : Ontology) (s : Selection) (t : Topology) : List (Nat × String) :=
  t.reactions.zipIdx.flatMap fun r => (selectedFor o s r.1).map fun x => (r.2, x.1)

theorem exists_mem_zipIdx {α : Type} {as : List α} {P : α → Prop} :
    (∃ e ∈ as.zipIdx, P e.1) ↔ ∃ r ∈ as, P r := by
  constructor
  · rintro ⟨⟨r, i⟩, he, hr⟩
    exact ⟨r, List.mem_of_getElem? (List.mem_zipIdx_iff_getElem?.1 he), hr⟩
  · rintro ⟨r, hr, hp⟩
    obtain ⟨i, hi⟩ := List.mem_iff_getElem?.1 hr
    exact ⟨(r, i), List.mem_zipIdx_iff_getElem?.2 hi, hp⟩

theorem mem_reactionLaws :
    (name, law) ∈ (t.reactions.zipIdx.flatMap fun r => selectedFor o s r.1) ↔
      o.laws.find? name = some law ∧ ∃ p, law.phenomenon = some p ∧
        ∃ r ∈ t.reactions, ∃ ps, s.reactionPhenomena.find? r.text = some ps ∧ p ∈ ps := by
  rw [List.mem_flatMap, exists_mem_zipIdx (P := fun r => (name, law) ∈ selectedFor o s r)]
  simp only [mem_selectedFor]
  constructor
  · rintro ⟨r, hr, hl, p, hp, hs⟩
    exact ⟨hl, p, hp, r, hr, hs⟩
  · rintro ⟨hl, p, hp, r, hr, hs⟩
    exact ⟨r, hr, hl, p, hp, hs⟩

theorem mem_switchedOn : (name, law) ∈ switchedOn o s t ↔ o.SwitchesOn s t name law := by
  have hphase : (∃ k, o.Accompanies s t k name) ↔
      o.Accompanies s t .gas name ∨ o.Accompanies s t .solid name := by
    constructor
    · rintro ⟨_ | _, h⟩
      · exact .inl h
      · exact .inr h
    · rintro (h | h) <;> exact ⟨_, h⟩
  simp only [switchedOn, List.mem_append, mem_lawsOf, mem_phaseLaws, mem_reactionLaws,
    List.mem_singleton, Ontology.SwitchesOn, Selection.Includes, hphase]
  by_cases hl : o.laws.find? name = some law
  · simp only [hl, true_and, and_or_left, exists_or, or_assoc]
  · simp only [hl, false_and, or_false]

theorem exists_mem_reactionNotes :
    (∃ position, (position, name) ∈ reactionNotes o s t) ↔ o.Drives s t name := by
  simp only [reactionNotes, List.mem_flatMap, List.mem_map, Prod.mk.injEq, Prod.exists,
    Ontology.Drives]
  constructor
  · rintro ⟨_, r, i, hr, _, law, hlaw, rfl, rfl⟩
    obtain ⟨hl, p, hp, ps, hs, hin⟩ := mem_selectedFor.1 hlaw
    exact ⟨r, List.mem_of_getElem? (List.mem_zipIdx_iff_getElem?.1 hr), ps, hs, law, p, hl, hp, hin⟩
  · rintro ⟨r, hr, ps, hs, law, p, hl, hp, hin⟩
    obtain ⟨i, hi⟩ := List.mem_iff_getElem?.1 hr
    exact ⟨i, r, i, List.mem_zipIdx_iff_getElem?.2 hi, name, law,
      mem_selectedFor.2 ⟨hl, p, hp, ps, hs, hin⟩, rfl, rfl⟩

end Activation

namespace Ontology

variable {o : Ontology} {s : Selection} {t : Topology}

/-- The variable is defined by what is switched on, or by an override. -/
def Selects (o : Ontology) (s : Selection) (t : Topology) (v : String) : Prop :=
  (∃ l law, o.SwitchesOn s t l law ∧ law.differentialVariable = some v) ∨
    (∃ l law, o.SwitchesOn s t l law ∧ law.differentialVariable = none ∧ o.Claims v l) ∨
    s.overrides.contains v = true

/-- The law reads the variable: as an input, or as an optional one that is selected. -/
def Reads (o : Ontology) (s : Selection) (t : Topology) (law : Law) (v : String) : Prop :=
  v ∈ law.inputs.toList ∨ (v ∈ law.optionalInputs.toList ∧ o.Selects s t v)

end Ontology

namespace Activation

variable {o : Ontology} {s : Selection} {t : Topology} {a : Activation} {law : Law} {v : String}
  {ls : List (String × Law)} {notes : List (Nat × String)}

theorem Filled.contains_iff {κ : Type} [Ord κ] {d : Dict κ NameSet} {k : κ} (h : Filled d) :
    d.contains k = true ↔ ∃ name, Names d k name := by
  refine ⟨h k, ?_⟩
  rintro ⟨name, names, hf, -⟩
  rw [Dict.contains, hf]
  rfl

namespace Reflects

theorem state_iff (h : Reflects o a ls notes) :
    a.stateLaws.contains v = true ↔ ∃ l, IntegratedBy ls v l := by
  refine ⟨fun hc => ?_, fun ⟨l, hl⟩ => h.integrated v l hl⟩
  obtain ⟨l, hl⟩ := Option.isSome_iff_exists.1 hc
  exact ⟨l, h.integrating v l hl⟩

/-- The targets are the variables that claim a law of the list that integrates nothing. -/
theorem target_iff (h : Reflects o a ls notes) : a.targets.contains v = true ↔
    ∃ l law, (l, law) ∈ ls ∧ law.differentialVariable = none ∧ o.Claims v l := by
  simp only [h.targetsFilled.contains_iff, h.targeting, TargetedBy, ← mem_claimants]
  constructor
  · rintro ⟨l, law, hm, hd, hc⟩
    exact ⟨l, law, hm, hd, by simp [hc]⟩
  · rintro ⟨l, law, hm, hd, hc⟩
    rcases h.targeted _ hm hd with ⟨w, hw⟩ | ⟨hw, -⟩
    · rw [hw, List.mem_singleton] at hc
      exact ⟨l, law, hm, hd, hc ▸ hw⟩
    · rw [hw] at hc
      cases hc

section Selected

variable (h : Reflects o a (switchedOn o s t) notes)
include h

theorem selects_iff : a.selects s v = true ↔ o.Selects s t v := by
  rw [selects, Bool.or_eq_true, Bool.or_eq_true, h.target_iff, h.state_iff, Ontology.Selects]
  simp only [IntegratedBy, mem_switchedOn]
  rw [or_comm (a := ∃ l law, _), or_assoc]

theorem mem_inputs : v ∈ (a.inputs s law).toList ↔ o.Reads s t law v := by
  rw [inputs, OrderedSet.mem_toList_addAll, List.mem_filter, h.selects_iff, Ontology.Reads]

theorem active_iff {l : String} :
    (l ∈ a.active.toList ∧ o.lawOf l = .ok law) ↔ o.SwitchesOn s t l law := by
  rw [h.active l, Ontology.lawOf_ok]
  simp only [mem_switchedOn]
  constructor
  · rintro ⟨⟨law', hf, hs⟩, hl⟩
    rw [hl] at hf
    cases hf
    exact ⟨hl, hs⟩
  · intro hs
    exact ⟨⟨law, hs⟩, hs.1⟩

end Selected

theorem drives_iff (h : Reflects o a ls (reactionNotes o s t)) :
    a.reactionLaws.isEmpty = false ↔ ∃ l, o.Drives s t l := by
  simp only [← exists_mem_reactionNotes, ← h.noted]
  constructor
  · intro he
    obtain ⟨e, he⟩ := List.exists_mem_of_ne_nil _ (List.isEmpty_eq_false_iff.1 he)
    have hc : a.reactionLaws.contains e.1 = true := by
      rw [Dict.contains, Dict.find?_eq_some_iff.2 he]
      rfl
    obtain ⟨l, hl⟩ := h.notesFilled e.1 hc
    exact ⟨l, e.1, hl⟩
  · rintro ⟨l, position, names, hf, -⟩
    exact List.isEmpty_eq_false_iff.2 (List.ne_nil_of_mem (Dict.find?_eq_some_iff.1 hf))

end Reflects

end Activation

namespace Model

open Activation

variable {o : Ontology} {s : Selection} {t : Topology} {acc : Accumulation}

/-- The accumulation law is the only one of its phenomenon, and it declares all it needs. -/
theorem accumulationOf_declares (h : accumulationOf o s = .ok acc) :
    lawsOf o [s.accumulation] = [(acc.name, acc.law)] ∧
      acc.law.differentialVariable = some acc.state ∧
      acc.law.integralVariable = some acc.integralVariable ∧
      acc.law.upperLimit = some acc.upperLimit := by
  simp only [accumulationOf] at h
  split at h
  · cases h
  · rename_i hl
    split at h
    · cases h
      exact ⟨hl, ‹_›, ‹_›, ‹_›⟩
    · cases h
  · cases h

theorem mem_accumulation {l : String} {law : Law} (h : accumulationOf o s = .ok acc) :
    (o.laws.find? l = some law ∧ law.phenomenon = some s.accumulation) ↔
      l = acc.name ∧ law = acc.law := by
  have hm : (l, law) ∈ lawsOf o [s.accumulation] ↔ (l, law) = (acc.name, acc.law) := by
    rw [(accumulationOf_declares h).1, List.mem_singleton]
  simpa only [mem_lawsOf, List.mem_singleton, exists_eq_right, Prod.mk.injEq] using hm

/-- What is active is what the selection switches on, and the states of phases are those that the
laws of phases integrate. -/
theorem activated_reflects {r : Activated} (hacc : accumulationOf o s = .ok acc)
    (h : activated o s t acc = .ok r) :
    Reflects o r.activation (switchedOn o s t) (reactionNotes o s t) ∧
      r.phaseStates = phaseStates .gas (phaseLaws o s t .gas) ++
        phaseStates .solid (phaseLaws o s t .solid) ∧
      ∀ k, (phaseLaws o s t k).length ≤ 1 := by
  simp only [activated, bind_ok, pure_ok] at h
  obtain ⟨a₁, h₁, ⟨a₂, joint⟩, h₂, a₃, h₃, a₄, h₄, a₅, h₅, ⟨a₆, gas⟩, h₆, ⟨a₇, solid⟩, h₇, rfl⟩ := h
  have hmain := reflects_initial.activate h₁
  have hreactions := (((hmain.activateFlow h₂).activateAll h₃).activateAll h₄).activateReactions h₅
  obtain ⟨hgas, rfl, hgas₁⟩ := hreactions.activatePhase h₆
  obtain ⟨hsolid, rfl, hsolid₁⟩ := hgas.activatePhase h₇
  refine ⟨?_, rfl, fun k => ?_⟩
  · simpa [switchedOn, reactionNotes, (accumulationOf_declares hacc).1] using hsolid
  · cases k
    · exact hgas₁
    · exact hsolid₁

end Model

end Kinetics

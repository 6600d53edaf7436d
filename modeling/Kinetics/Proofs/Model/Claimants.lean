import Kinetics.Proofs.Model.States

/-!
# Kinetics.Proofs.Model.Claimants

Which laws of a model are claimed by one variable only. A law that is switched on and integrates
nothing is refused when two variables claim it. A law that integrates is not looked at, nor is one
that defines a variable by an override or as its definitional law: two variables can be computed by
it, each with the same formula.
-/

namespace Kinetics

/-- Two variables claim the law. -/
def Ontology.Disputed (o : Ontology) (l : String) : Prop :=
  ∃ v w, v ≠ w ∧ o.Claims v l ∧ o.Claims w l

namespace Activation

variable {o : Ontology} {s : Selection} {t : Topology} {a : Activation} {name l v : String}
  {law : Law} {e : Fault} {xs : List (String × Law)}

theorem disputed_iff : o.Disputed l ↔ ∃ v w rest, claimants o l = v :: w :: rest := by
  simp only [Ontology.Disputed, ← mem_claimants]
  constructor
  · rintro ⟨v, w, hne, hv, hw⟩
    match hc : claimants o l with
    | [] =>
      rw [hc] at hv
      cases hv
    | [x] =>
      rw [hc, List.mem_singleton] at hv hw
      exact absurd (hv.trans hw.symm) hne
    | x :: y :: rest => exact ⟨x, y, rest, rfl⟩
  · rintro ⟨v, w, rest, hc⟩
    have hnodup : (claimants o l).Nodup := nodup_claimants
    rw [hc, List.nodup_cons] at hnodup
    refine ⟨v, w, fun heq => hnodup.1 (heq ▸ List.mem_cons_self), ?_, ?_⟩ <;> simp [hc]

/-- A law of one target, or of none, is not disputed. -/
theorem Targeted.not_disputed (h : Targeted o l law) (hd : law.differentialVariable = none) :
    ¬o.Disputed l := by
  rw [disputed_iff]
  rintro ⟨v, w, rest, hc⟩
  rcases h hd with ⟨x, hx⟩ | ⟨hx, -⟩
  · cases hc.symm.trans hx
  · cases hc.symm.trans hx

/-- The law integrates, or some variable claims it, or it is integrated jointly. -/
def Useful (o : Ontology) (l : String) (law : Law) : Prop :=
  law.differentialVariable = none → (∃ v, o.Claims v l) ∨ law.jointFormula.isSome = true

theorem activate_error (h : a.activate o name law = .error e) (hu : Useful o name law) :
    e.report.code = .conflictingLawTarget := by
  simp only [activate, target] at h
  split at h
  · cases h
  · rename_i hd
    split at h
    · rename_i hc
      split at hc <;> cases hc
      cases h
      rfl
    · cases h
    · rename_i hc
      split at hc <;> cases hc
      rename_i hnone
      split at h
      · cases h
      · rename_i hj
        rcases hu hd with ⟨v, hv⟩ | hu
        · rw [← mem_claimants, hnone] at hv
          cases hv
        · exact absurd hu hj

theorem activateAll_error (h : a.activateAll o xs = .error e) (hu : ∀ x ∈ xs, Useful o x.1 x.2) :
    e.report.code = .conflictingLawTarget := by
  induction xs generalizing a with
  | nil => cases h
  | cons x xs ih =>
    simp only [activateAll] at h
    split at h
    · rename_i hx
      cases h
      exact activate_error hx (hu x List.mem_cons_self)
    · exact ih h fun y hy => hu y (List.mem_cons_of_mem _ hy)

/-- One law of the list at most is integrated jointly, and none if there is one already. -/
def LoneJoint (joint : Option String) (xs : List (String × Law)) : Prop :=
  (joint.isSome = true → ∀ x ∈ xs, x.2.jointFormula.isSome = false) ∧
    xs.Pairwise fun x y => x.2.jointFormula.isSome = true → y.2.jointFormula.isSome = false

theorem activateFlow_error {joint : Option String} (h : a.activateFlow o joint xs = .error e)
    (hu : ∀ x ∈ xs, Useful o x.1 x.2) (hj : LoneJoint joint xs) :
    e.report.code = .conflictingLawTarget := by
  induction xs generalizing a joint with
  | nil => cases h
  | cons x xs ih =>
    obtain ⟨hnone, hpair⟩ := hj
    obtain ⟨hx, hpair⟩ := List.pairwise_cons.1 hpair
    have hrest : ∀ y ∈ xs, Useful o y.1 y.2 := fun y hy => hu y (List.mem_cons_of_mem _ hy)
    simp only [activateFlow] at h
    split at h
    · rename_i ha
      cases h
      exact activate_error ha (hu x List.mem_cons_self)
    · split at h
      · rename_i hlaw
        split at h
        · rename_i hsome
          rw [hnone hsome x List.mem_cons_self] at hlaw
          cases hlaw
        · exact ih h hrest ⟨fun _ y hy => hx y hy hlaw, hpair⟩
      · exact ih h hrest ⟨fun hsome y hy => hnone hsome y (List.mem_cons_of_mem _ hy), hpair⟩

theorem activateReaction_error {position : Nat} (h : activateReaction o position a xs = .error e)
    (hu : ∀ x ∈ xs, Useful o x.1 x.2) : e.report.code = .conflictingLawTarget := by
  induction xs generalizing a with
  | nil => cases h
  | cons x xs ih =>
    simp only [activateReaction] at h
    split at h
    · rename_i hx
      cases h
      exact activate_error hx (hu x List.mem_cons_self)
    · exact ih h fun y hy => hu y (List.mem_cons_of_mem _ hy)

theorem activateReactions_error {rs : List (Reaction × Nat)}
    (h : a.activateReactions o s rs = .error e)
    (hu : ∀ r ∈ rs, ∀ x ∈ selectedFor o s r.1, Useful o x.1 x.2) :
    e.report.code = .conflictingLawTarget := by
  induction rs generalizing a with
  | nil => cases h
  | cons r rs ih =>
    simp only [activateReactions] at h
    split at h
    · rename_i hr
      cases h
      exact activateReaction_error hr (hu r List.mem_cons_self)
    · exact ih h fun r' hr' => hu r' (List.mem_cons_of_mem _ hr')

theorem associated_some {transport : List (String × Law)} {k : Phase}
    (h : associated transport k = .ok (some l)) : ∃ x ∈ transport, l ∈ x.2.associated k := by
  simp only [associated] at h
  split at h
  · cases h
  · rename_i hl
    cases h
    exact List.mem_filterMap.1
      (OrderedSet.mem_toList_ofList.1 (hl ▸ List.mem_singleton_self l))
  · cases h

/-- Only two different laws of one phase are at odds. -/
theorem associated_error {transport : List (String × Law)} {k : Phase}
    (h : associated transport k = .error e) :
    ∃ x ∈ transport, ∃ y ∈ transport, ∃ l ∈ x.2.associated k, ∃ l' ∈ y.2.associated k, l ≠ l' := by
  have hnamed : ∀ l ∈ (OrderedSet.ofList (transport.filterMap fun e => e.2.associated k) :
      NameSet).toList, ∃ x ∈ transport, l ∈ x.2.associated k := fun l hl =>
    List.mem_filterMap.1 (OrderedSet.mem_toList_ofList.1 hl)
  have hnodup : (OrderedSet.ofList (transport.filterMap fun e => e.2.associated k) :
      NameSet).toList.Nodup := Dict.nodup_keys
  rw [associated] at h
  generalize (OrderedSet.ofList (transport.filterMap fun e => e.2.associated k) :
    NameSet).toList = names at h hnamed hnodup
  cases names with
  | nil => cases h
  | cons l names =>
    cases names with
    | nil => cases h
    | cons l' rest =>
      obtain ⟨x, hx, hl⟩ := hnamed l List.mem_cons_self
      obtain ⟨y, hy, hl'⟩ := hnamed l' (List.mem_cons_of_mem _ List.mem_cons_self)
      refine ⟨x, hx, y, hy, l, hl, l', hl', ?_⟩
      rintro rfl
      exact (List.nodup_cons.1 hnodup).1 List.mem_cons_self

/-- The transport laws name one law for the phase at most. -/
def LoneCompanion (o : Ontology) (s : Selection) (k : Phase) : Prop :=
  ∀ x ∈ lawsOf o s.transport, ∀ y ∈ lawsOf o s.transport,
    ∀ l ∈ x.2.associated k, ∀ l' ∈ y.2.associated k, l = l'

theorem activatePhase_error {k : Phase}
    (h : a.activatePhase o t (lawsOf o s.transport) k = .error e) (hk : LoneCompanion o s k)
    (hknown : ∀ l, o.Accompanies s t k l → ∃ law, o.laws.find? l = some law)
    (hu : ∀ x ∈ phaseLaws o s t k, Useful o x.1 x.2) : e.report.code = .conflictingLawTarget := by
  simp only [activatePhase] at h
  split at h
  · rename_i hn
    obtain ⟨x, hx, y, hy, l, hl, l', hl', hne⟩ := associated_error hn
    exact absurd (hk x hx y hy l hl l' hl') hne
  · cases h
  · rename_i name hn
    obtain ⟨⟨carrier, law⟩, hx, hl⟩ := associated_some hn
    obtain ⟨hcarrier, p, hp, hs⟩ := mem_lawsOf.1 hx
    split at h
    · rename_i hphase
      have haccompanies : o.Accompanies s t k name :=
        ⟨hphase, carrier, law, p, hcarrier, hp, hs, hl⟩
      obtain ⟨law', hlaw'⟩ := hknown name haccompanies
      rw [Ontology.lawOf_ok.2 hlaw'] at h
      dsimp only at h
      split at h
      · rename_i ha
        cases h
        exact activate_error ha (hu (name, law') (mem_phaseLaws.2 ⟨hlaw', haccompanies⟩))
      · cases h
    · cases h

end Activation

namespace Model

open Activation Closure

variable {o : Ontology} {s : Selection} {t : Topology} {m : Model} {v w l : String}

/-- Nothing is wrong with what a selection switches on, but that a law may be disputed. -/
structure Orderly (o : Ontology) (s : Selection) (t : Topology) : Prop where
  accumulation : ∃ acc, accumulationOf o s = .ok acc
  useful : ∀ l law, o.SwitchesOn s t l law → Useful o l law
  joint : LoneJoint none (lawsOf o [s.flowPattern])
  companion : ∀ k, LoneCompanion o s k
  known : ∀ k l, o.Accompanies s t k l → ∃ law, o.laws.find? l = some law

theorem activated_error {acc : Accumulation} {e : Fault} (ho : Orderly o s t)
    (hacc : accumulationOf o s = .ok acc) (h : activated o s t acc = .error e) :
    e.report.code = .conflictingLawTarget := by
  have hu : ∀ x ∈ switchedOn o s t, Useful o x.1 x.2 := fun x hx =>
    ho.useful x.1 x.2 (mem_switchedOn.1 hx)
  rw [switchedOn, (accumulationOf_declares hacc).1] at hu
  simp only [List.forall_mem_append] at hu
  obtain ⟨⟨⟨⟨⟨⟨hmain, hflow⟩, htransport⟩, hequilibrium⟩, hreactions⟩, hgas⟩, hsolid⟩ := hu
  simp only [activated, bind_error] at h
  rcases h with h | ⟨a₁, -, h | ⟨a₂, -, h | ⟨a₃, -, h | ⟨a₄, -, h | ⟨a₅, -, h | ⟨a₆, -, h | ⟨a₇, -, h⟩⟩⟩⟩⟩⟩⟩
  · exact activate_error h (hmain _ (List.mem_singleton_self _))
  · exact activateFlow_error h hflow ho.joint
  · exact activateAll_error h htransport
  · exact activateAll_error h hequilibrium
  · exact activateReactions_error h fun r hr x hx => hreactions x (List.mem_flatMap.2 ⟨r, hr, hx⟩)
  · exact activatePhase_error h (ho.companion .gas) (ho.known .gas) hgas
  · exact activatePhase_error h (ho.companion .solid) (ho.known .solid) hsolid
  · cases h

/-- The law defines the variable by an override, or as a definitional one. -/
def Supplies (o : Ontology) (s : Selection) (v l : String) : Prop :=
  s.overrides.find? v = some l ∨ ∃ law, o.laws.find? l = some law ∧ law.isDefinitional = true

section Resolved

variable (h : resolve o s t = .ok m)
include h

/-- The active laws are those that are switched on, and those of definitions. -/
theorem mem_activeLaws : l ∈ m.activeLaws.toList ↔
    (∃ law, o.SwitchesOn s t l law) ∨ ∃ v d, m.definitions.find? v = some d ∧ l ∈ d.laws := by
  simp only [resolve, bind_ok] at h
  obtain ⟨acc, hacc, r, hr, pending, -, defs, -, deps, -, order, -, h⟩ := h
  cases h
  obtain ⟨hreflects, -, -⟩ := activated_reflects hacc hr
  rw [OrderedSet.mem_toList_addAll, hreflects.active l]
  simp only [mem_switchedOn, Dict.values, List.mem_flatMap, List.mem_map, Prod.exists,
    exists_eq_right, Dict.find?_eq_some_iff]
  refine or_congr_right ⟨?_, ?_⟩
  · rintro ⟨d, ⟨v, hv⟩, hl⟩
    exact ⟨v, d, hv, hl⟩
  · rintro ⟨v, d, hv, hl⟩
    exact ⟨d, ⟨v, hv⟩, hl⟩

/-- A law of a definition integrates the variable, has it as its target, or supplies it. -/
theorem law_of_definition {d : Definition} (hd : m.definitions.find? v = some d)
    (hl : l ∈ d.laws) :
    (d = .state l ∧ Integrates o s t l v) ∨
      (∃ law, o.SwitchesOn s t l law ∧ law.differentialVariable = none ∧ claimants o l = [v]) ∨
      (d = .derived l ∧ o.Claims v l ∧ Supplies o s v l) := by
  obtain ⟨a, hreflects, hjust, -⟩ := resolve_reflects h
  obtain ⟨x, hx, hdef⟩ := hjust v d hd
  rw [Ontology.variableOf_ok] at hx
  cases source_of_definitionOf hdef hl with
  | state _ => exact .inl ⟨rfl, integrates_of_state h hd⟩
  | override hs hc => exact .inr (.inr ⟨rfl, ⟨x, hx, hc⟩, .inl hs⟩)
  | target hlaws hm _ =>
    obtain ⟨law, hs, hnone, hc⟩ := (hreflects.targeting v l).1 ⟨_, hlaws, hm⟩
    exact .inr (.inl ⟨law, mem_switchedOn.1 hs, hnone, hc⟩)
  | default hlaw hdefinitional hc =>
    exact .inr (.inr ⟨rfl, ⟨x, hx, hc⟩, .inr ⟨_, hlaw, hdefinitional⟩⟩)

theorem claims_of_definition {d : Definition} (hd : m.definitions.find? v = some d)
    (hc : d.isComputed = true) (hl : l ∈ d.laws) : o.Claims v l := by
  rcases law_of_definition h hd hl with ⟨rfl, -⟩ | ⟨law, -, -, hv⟩ | ⟨-, hv, -⟩
  · cases hc
  · rw [← mem_claimants, hv]
    exact List.mem_singleton_self v
  · exact hv

theorem not_disputed_of_switchesOn {law : Law} (hs : o.SwitchesOn s t l law)
    (hd : law.differentialVariable = none) : ¬o.Disputed l := by
  obtain ⟨a, hreflects, -⟩ := resolve_reflects h
  exact (hreflects.targeted (l, law) (mem_switchedOn.2 hs)).not_disputed hd

theorem active_undisputed (hintegrating : ∀ l v, Integrates o s t l v → ¬o.Disputed l)
    (hsupplying : ∀ v l, m.definitions.find? v = some (.derived l) → Supplies o s v l →
      ¬o.Disputed l) (hl : l ∈ m.activeLaws.toList) : ¬o.Disputed l := by
  have hswitched : ∀ law, o.SwitchesOn s t l law → ¬o.Disputed l := by
    intro law hs
    cases hd : law.differentialVariable with
    | none => exact not_disputed_of_switchesOn h hs hd
    | some v => exact hintegrating l v ⟨law, hs, hd⟩
  rcases (mem_activeLaws h).1 hl with ⟨law, hs⟩ | ⟨v, d, hd, hl⟩
  · exact hswitched law hs
  · rcases law_of_definition h hd hl with ⟨-, hi⟩ | ⟨law, hs, -⟩ | ⟨rfl, -, hs⟩
    · exact hintegrating l v hi
    · exact hswitched law hs
    · exact hsupplying v l hd hs

end Resolved

/-- Two variables that claim one law are at odds if the law is switched on and integrates nothing,
and then there is no model. But a model can have active laws that two variables claim: laws that
integrate, and laws that supply a variable. What is computed by a law claims it, so that only for
these can it be the same formula that computes two variables. -/
theorem active_undisputed_iff (o : Ontology) (s : Selection) (t : Topology) :
    (∀ l law, o.SwitchesOn s t l law → law.differentialVariable = none → o.Disputed l →
      ∃ e, resolve o s t = .error e ∧
        (Orderly o s t → e.report.code = .conflictingLawTarget)) ∧
    ∀ m, resolve o s t = .ok m →
      (∀ v d l, m.definitions.find? v = some d → d.isComputed = true → l ∈ d.laws →
        o.Claims v l) ∧
      ((∀ l ∈ m.activeLaws.toList, ¬o.Disputed l) ↔
        (∀ l v, Integrates o s t l v → ¬o.Disputed l) ∧
        ∀ v l, m.definitions.find? v = some (.derived l) → Supplies o s v l → ¬o.Disputed l) := by
  refine ⟨fun l law hs hd hl => ?_, fun m h => ⟨fun v d l hd hc hl => ?_, fun hall => ⟨?_, ?_⟩, ?_⟩⟩
  · cases hm : resolve o s t with
    | ok m => exact absurd hl (not_disputed_of_switchesOn hm hs hd)
    | error e =>
      refine ⟨e, rfl, fun ho => ?_⟩
      obtain ⟨acc, hacc⟩ := ho.accumulation
      cases hr : activated o s t acc with
      | error e' =>
        simp only [resolve, hacc, hr, bind, Except.bind] at hm
        cases hm
        exact activated_error ho hacc hr
      | ok r =>
        obtain ⟨hreflects, -, -⟩ := activated_reflects hacc hr
        exact absurd hl ((hreflects.targeted (l, law) (mem_switchedOn.2 hs)).not_disputed hd)
  · exact claims_of_definition h hd hc hl
  · rintro l v ⟨law, hs, -⟩
    exact hall l ((mem_activeLaws h).2 (.inl ⟨law, hs⟩))
  · intro v l hd _
    exact hall l ((mem_activeLaws h).2 (.inr ⟨v, _, hd, List.mem_singleton_self l⟩))
  · rintro ⟨hintegrating, hsupplying⟩ l hl
    exact active_undisputed h hintegrating hsupplying hl

section Shared

/-- A balance of `a` and `b`, which both claim the definitional law `Shared` and the law of the flow
pattern `Plug`. -/
def shared : Ontology where
  quantities := Dict.ofList
    [("C", ⟨.stateVariable, "C", none, Dict.empty, Dict.empty, none⟩),
      ("a", ⟨.quantity, "a", none, Dict.empty, OrderedSet.ofList ["Plug_Law", "Shared"], none⟩),
      ("b", ⟨.quantity, "b", none, Dict.empty, OrderedSet.ofList ["Plug_Law", "Shared"], none⟩),
      ("k", ⟨.modelParameter, "k", none, Dict.empty, Dict.empty, none⟩),
      ("t", ⟨.independentVariable, "t", none, Dict.empty, Dict.empty, none⟩),
      ("tf", ⟨.operationParameter, "tf", none, Dict.empty, Dict.empty, none⟩)]
  laws := Dict.ofList
    [("Balance", ⟨"<mi>a</mi><mo>+</mo><mi>b</mi>", some "Batch", OrderedSet.ofList ["a", "b"],
        Dict.empty, none, none, some "t", some "tf", some "C", none⟩),
      ("Plug_Law", ⟨"<mi>k</mi>", some "Plug", OrderedSet.ofList ["k"], Dict.empty, none, none, none,
        none, none, none⟩),
      ("Shared", ⟨"<mn>2</mn><mi>k</mi>", none, OrderedSet.ofList ["k"], Dict.empty, none, none,
        none, none, none, none⟩)]
  units := Dict.empty

theorem disputed_shared : shared.Disputed "Plug_Law" ∧ shared.Disputed "Shared" := by
  simp only [disputed_iff]
  exact ⟨⟨"a", "b", [], by decide +kernel⟩, ⟨"a", "b", [], by decide +kernel⟩⟩

theorem orderly_shared : Orderly shared (batch "Plug") plainTopology where
  accumulation := exists_ok (by decide +kernel)
  useful := by
    have hall : ∀ x ∈ switchedOn shared (batch "Plug") plainTopology,
        x.2.differentialVariable = none → "a" ∈ claimants shared x.1 := by decide +kernel
    intro l law hs hd
    exact .inl ⟨"a", mem_claimants.1 (hall (l, law) (mem_switchedOn.2 hs) hd)⟩
  joint := by
    refine ⟨fun h => absurd h Bool.false_ne_true, ?_⟩
    decide +kernel
  companion := by
    intro k x hx
    cases (mem_lawsOf.1 hx).2.choose_spec.2
  known := by
    rintro k l ⟨-, carrier, law, p, -, -, hp, -⟩
    cases hp

/-- With the flow pattern the claims on its law are at odds; without it `a` and `b` are computed by the
law that they share. -/
theorem active_undisputed_iff_shared :
    (∃ e, resolve shared (batch "Plug") plainTopology = .error e ∧
      e.report.code = .conflictingLawTarget) ∧
    ∃ m, resolve shared (batch "") plainTopology = .ok m ∧
      m.definitions.find? "a" = some (.derived "Shared") ∧
      m.definitions.find? "b" = some (.derived "Shared") ∧
      ¬∀ l ∈ m.activeLaws.toList, ¬shared.Disputed l := by
  constructor
  · obtain ⟨hrefused, -⟩ := active_undisputed_iff shared (batch "Plug") plainTopology
    obtain ⟨law, hlaw, hp, hd⟩ : ∃ law, shared.laws.find? "Plug_Law" = some law ∧
        law.phenomenon = some "Plug" ∧ law.differentialVariable = none := ⟨_, rfl, rfl, rfl⟩
    obtain ⟨e, he, hcode⟩ := hrefused "Plug_Law" law
      ⟨hlaw, .inl ⟨"Plug", hp, .inr (.inl rfl)⟩⟩ hd disputed_shared.1
    exact ⟨e, he, hcode orderly_shared⟩
  · obtain ⟨m, hm, hdefs⟩ := exists_ok_of_map (x := resolve shared (batch "") plainTopology)
      (f := fun m : Model => (m.definitions.find? "a", m.definitions.find? "b"))
      (b := (some (.derived "Shared"), some (.derived "Shared"))) (by decide +kernel)
    obtain ⟨ha, hb⟩ := Prod.mk.inj hdefs
    obtain ⟨-, hmodel⟩ := active_undisputed_iff shared (batch "") plainTopology
    obtain ⟨-, hiff⟩ := hmodel m hm
    refine ⟨m, hm, ha, hb, fun hall => ?_⟩
    have hsupplies : Supplies shared (batch "") "a" "Shared" := .inr ⟨_, rfl, rfl⟩
    exact (hiff.1 hall).2 "a" "Shared" ha hsupplies disputed_shared.2

end Shared

end Model

end Kinetics

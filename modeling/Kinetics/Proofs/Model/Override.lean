import Kinetics.Proofs.Model.Claimants

/-!
# Kinetics.Proofs.Model.Override

What becomes of an override. It defines its variable unless that is a state, a constant or what is
integrated over; there its law is not looked at, whatever it is. Where it defines the variable, the
law exists and the variable claims it, and a variable that is reached with a law that is not so has
no model.
-/

namespace Kinetics

namespace Closure

variable {o : Ontology} {s : Selection} {a : Activation} {integral name l : String} {v : Variable}
  {d : Definition}

/-- An override comes to a variable that neither is integrated over nor a state nor constant. -/
theorem definitionOf_overridden (hne : name ≠ integral) (hstate : a.stateLaws.find? name = none)
    (hrole : v.role ≠ .constant) (hl : s.overrides.find? name = some l) :
    definitionOf o s a integral name v = defineByOverride o name v l := by
  rw [definitionOf, if_neg hne, define, hstate]
  simp only [if_neg hrole, hl]

/-- The law of an override has to be known and claimed. -/
theorem defineByOverride_ok : defineByOverride o name v l = .ok d ↔
    d = .derived l ∧ Dict.contains v.laws l = true ∧ ∃ law, o.laws.find? l = some law := by
  unfold defineByOverride
  split
  · rename_i hc
    split
    · rename_i hlaw
      simp [← Ontology.lawOf_ok, hlaw]
    · rename_i law hlaw
      simp [Ontology.lawOf_ok.1 hlaw, hc, eq_comm]
  · rename_i hc
    simp [hc]

end Closure

namespace Model

open Activation Closure Relation

variable {o : Ontology} {s : Selection} {t : Topology} {m : Model} {v l : String}

/-- The variable is neither a state nor constant, nor what the accumulation law integrates over. -/
structure Overridable (o : Ontology) (s : Selection) (t : Topology) (v : String) : Prop where
  state : ∀ l, ¬Integrates o s t l v
  constant : ∀ x, o.variableOf v = .ok x → x.role ≠ .constant
  independent : ∀ l law, o.laws.find? l = some law → law.phenomenon = some s.accumulation →
    law.integralVariable ≠ some v

/-- The variable is among those that the selection brings in, or the laws of definitions lead from
one of these to it. -/
def Reaches (o : Ontology) (s : Selection) (t : Topology) (v : String) : Prop :=
  ∃ acc r pending root, accumulationOf o s = .ok acc ∧ activated o s t acc = .ok r ∧
    seeds o s acc r.activation = .ok pending ∧ root ∈ pending ∧
    ReflTransGen (Brings o s r.activation acc.integralVariable) root v

section Resolved

variable (h : resolve o s t = .ok m)
include h

/-- The variables of a model are those that are reached. -/
theorem contains_definitions_iff : m.definitions.contains v = true ↔ Reaches o s t v := by
  obtain ⟨acc, r, pending, -, hacc, hr, hp, hd, -⟩ := resolve_ok h
  rw [contains_close hd]
  constructor
  · rintro ⟨root, hroot, hpath⟩
    exact ⟨acc, r, pending, root, hacc, hr, hp, List.mem_reverse.1 hroot, hpath⟩
  · rintro ⟨acc', r', pending', root, hacc', hr', hp', hroot, hpath⟩
    cases hacc.symm.trans hacc'
    cases hr.symm.trans hr'
    cases hp.symm.trans hp'
    exact ⟨root, List.mem_reverse.2 hroot, hpath⟩

theorem overridable_iff {a : Activation} {notes : List (Nat × String)}
    (ha : Reflects o a (switchedOn o s t) notes) : Overridable o s t v ↔
      v ≠ m.integralVariable ∧ a.stateLaws.find? v = none ∧
        ∀ x, o.variableOf v = .ok x → x.role ≠ .constant := by
  constructor
  · intro ho
    refine ⟨fun hv => ?_, ?_, ho.constant⟩
    · obtain ⟨l, law, hl, hp, hi⟩ := (integralVariable_iff h).1 hv
      exact ho.independent l law hl hp hi
    · cases hstate : a.stateLaws.find? v with
      | none => rfl
      | some l =>
        obtain ⟨law, hm, hlaw⟩ := ha.integrating v l hstate
        exact absurd ⟨law, mem_switchedOn.1 hm, hlaw⟩ (ho.state l)
  · rintro ⟨hv, hstate, hrole⟩
    refine ⟨?_, hrole, fun l law hl hp hi => hv ((integralVariable_iff h).2 ⟨l, law, hl, hp, hi⟩)⟩
    rintro l ⟨law, hs, hlaw⟩
    have hc := ha.integrated v l ⟨law, mem_switchedOn.2 hs, hlaw⟩
    rw [Dict.contains, hstate] at hc
    cases hc

/-- Where an override applies, it defines the variable, which claims its law. -/
theorem definition_of_overridable (hv : m.definitions.contains v = true)
    (ho : Overridable o s t v) (hl : s.overrides.find? v = some l) :
    m.definitions.find? v = some (.derived l) ∧ o.Claims v l ∧
      ∃ law, o.laws.find? l = some law := by
  obtain ⟨a, hreflects, hjust, -⟩ := resolve_reflects h
  obtain ⟨hne, hstate, hrole⟩ := (overridable_iff h hreflects).1 ho
  obtain ⟨d, hd⟩ := Option.isSome_iff_exists.1 hv
  obtain ⟨x, hx, hdef⟩ := hjust v d hd
  rw [definitionOf_overridden hne hstate (hrole x hx) hl, defineByOverride_ok] at hdef
  obtain ⟨rfl, hc, hlaw⟩ := hdef
  exact ⟨hd, ⟨x, Ontology.variableOf_ok.1 hx, hc⟩, hlaw⟩

/-- Whatever its override says, a variable that cannot be overridden is what it is without one. -/
theorem definition_of_not_overridable (hv : m.definitions.contains v = true)
    (ho : ¬Overridable o s t v) :
    (v = m.integralVariable ∧ m.definitions.find? v = some .independent) ∨
      (∃ l, Integrates o s t l v ∧ m.definitions.find? v = some (.state l)) ∨
      ((∃ x, o.variableOf v = .ok x ∧ x.role = .constant) ∧
        m.definitions.find? v = some .constant) := by
  obtain ⟨a, hreflects, hjust, -⟩ := resolve_reflects h
  obtain ⟨d, hd⟩ := Option.isSome_iff_exists.1 hv
  obtain ⟨x, hx, hdef⟩ := hjust v d hd
  by_cases hne : v = m.integralVariable
  · rw [definitionOf, if_pos hne] at hdef
    cases hdef
    exact .inl ⟨hne, hd⟩
  cases hstate : a.stateLaws.find? v with
  | some l =>
    rw [definitionOf_state.2 ⟨hne, hstate⟩] at hdef
    cases hdef
    exact .inr (.inl ⟨l, integrates_of_state h hd, hd⟩)
  | none =>
    have hrole : x.role = .constant := by
      by_contra hrole
      refine ho ((overridable_iff h hreflects).2 ⟨hne, hstate, fun y hy => ?_⟩)
      cases hx.symm.trans hy
      exact hrole
    rw [definitionOf, if_neg hne, define, hstate] at hdef
    simp only [if_pos hrole] at hdef
    cases hdef
    exact .inr (.inr ⟨⟨x, hx, hrole⟩, hd⟩)

/-- A variable with an override counts as selected, whether the override defines it or not. -/
theorem selected_of_override (hv : m.definitions.contains v = true)
    (hl : s.overrides.find? v = some l) : v ∈ m.selected.toList := by
  simp only [resolve, bind_ok] at h
  obtain ⟨acc, -, r, -, pending, -, defs, -, deps, -, order, -, h⟩ := h
  cases h
  rw [OrderedSet.mem_toList_ofList, List.mem_filter]
  refine ⟨Dict.contains_iff.1 hv, ?_⟩
  simp [selects, Dict.contains, hl]

/-- An override defines its variable exactly if the variable can be overridden. -/
theorem derived_iff_overridable (hv : m.definitions.contains v = true)
    (hl : s.overrides.find? v = some l) :
    (m.definitions.find? v = some (.derived l) ∧ l ∈ m.activeLaws.toList) ↔
      Overridable o s t v := by
  constructor
  · rintro ⟨hd, -⟩
    by_contra ho
    rcases definition_of_not_overridable h hv ho with ⟨-, hd'⟩ | ⟨l', -, hd'⟩ | ⟨-, hd'⟩ <;>
      cases hd.symm.trans hd'
  · intro ho
    obtain ⟨hd, -⟩ := definition_of_overridable h hv ho hl
    exact ⟨hd, (mem_activeLaws h).2 (.inr ⟨v, _, hd, List.mem_singleton_self l⟩)⟩

end Resolved

/-- In every model, the override of a variable defines it by a law that is active, exists and is
claimed by the variable, exactly if the variable is neither a state nor constant nor integrated
over. These three stay what they are without a word about the override, which makes them count as
selected all the same. If a variable that can be overridden is reached and its override names a law
that is unknown or not claimed, there is no model. -/
theorem overrides_apply_iff (o : Ontology) (s : Selection) (t : Topology) (v l : String)
    (hl : s.overrides.find? v = some l) :
    (∀ m, resolve o s t = .ok m → m.definitions.contains v = true →
      ((m.definitions.find? v = some (.derived l) ∧ l ∈ m.activeLaws.toList) ↔
        Overridable o s t v) ∧
      (Overridable o s t v → o.Claims v l ∧ ∃ law, o.laws.find? l = some law) ∧
      (¬Overridable o s t v →
        (v = m.integralVariable ∧ m.definitions.find? v = some .independent) ∨
        (∃ l, Integrates o s t l v ∧ m.definitions.find? v = some (.state l)) ∨
        ((∃ x, o.variableOf v = .ok x ∧ x.role = .constant) ∧
          m.definitions.find? v = some .constant)) ∧
      v ∈ m.selected.toList) ∧
    (Reaches o s t v → Overridable o s t v →
      ¬(o.Claims v l ∧ ∃ law, o.laws.find? l = some law) → ∃ e, resolve o s t = .error e) := by
  refine ⟨fun m h hv => ⟨derived_iff_overridable h hv hl, fun ho => ?_,
    definition_of_not_overridable h hv, selected_of_override h hv hl⟩, fun hv ho hlaw => ?_⟩
  · exact (definition_of_overridable h hv ho hl).2
  · cases h : resolve o s t with
    | error e => exact ⟨e, rfl⟩
    | ok m =>
      have hv := (contains_definitions_iff h).2 hv
      exact absurd (definition_of_overridable h hv ho hl).2 hlaw

section Decay

/-- The decay with a law for its rate constant, and one that does not exist for the constant in that
law. -/
def rateOverridden : Selection :=
  { decaySelection with overrides := Dict.ofList [("A", "Lost"), ("k", "Arrhenius")] }

/-- The decay with a law for its rate constant that is the rate's. -/
def rateMistaken : Selection :=
  { decaySelection with overrides := Dict.ofList [("k", "Mass_Action")] }

theorem overridable_rateMistaken : Overridable decay rateMistaken decayTopology "k" where
  state := by
    have hall : ∀ e ∈ switchedOn decay rateMistaken decayTopology,
        e.2.differentialVariable ≠ some "k" := by decide +kernel
    rintro l ⟨law, hs, hk⟩
    exact hall _ (mem_switchedOn.2 hs) hk
  constant := by
    rintro x hx hrole
    cases hx
    cases hrole
  independent := by
    have hall : ∀ e ∈ decay.laws.entries, e.2.integralVariable ≠ some "k" := by decide +kernel
    intro l law hl _
    exact hall _ (Dict.find?_eq_some_iff.1 hl)

/-- The override of `A` is passed over without its law being looked for; that of `k` is followed,
and refused with a law of another variable. -/
theorem overrides_apply_iff_decay :
    (∃ m, resolve decay rateOverridden decayTopology = .ok m ∧
      m.definitions.find? "A" = some .constant ∧
      ¬Overridable decay rateOverridden decayTopology "A" ∧ "A" ∈ m.selected.toList ∧
      m.definitions.find? "k" = some (.derived "Arrhenius") ∧
      Overridable decay rateOverridden decayTopology "k") ∧
    ∃ e, resolve decay rateMistaken decayTopology = .error e := by
  constructor
  · obtain ⟨m, hm, hdefs⟩ := exists_ok_of_map (x := resolve decay rateOverridden decayTopology)
      (f := fun m : Model => (m.definitions.find? "A", m.definitions.find? "k"))
      (b := (some .constant, some (.derived "Arrhenius"))) (by decide +kernel)
    obtain ⟨ha, hk⟩ := Prod.mk.inj hdefs
    have hcontains {v : String} {d : Definition} (hd : m.definitions.find? v = some d) :
        m.definitions.contains v = true := by rw [Dict.contains, hd]; rfl
    obtain ⟨hof, -⟩ := overrides_apply_iff decay rateOverridden decayTopology "A" "Lost"
      (by decide +kernel)
    obtain ⟨hiff, -, -, hselected⟩ := hof m hm (hcontains ha)
    obtain ⟨hof', -⟩ := overrides_apply_iff decay rateOverridden decayTopology "k" "Arrhenius"
      (by decide +kernel)
    obtain ⟨hiff', -⟩ := hof' m hm (hcontains hk)
    refine ⟨m, hm, ha, fun ho => ?_, hselected, hk, hiff'.1 ⟨hk, ?_⟩⟩
    · cases ha.symm.trans (hiff.2 ho).1
    · exact (mem_activeLaws hm).2 (.inr ⟨"k", _, hk, List.mem_singleton_self _⟩)
  · obtain ⟨-, hrefused⟩ := overrides_apply_iff decay rateMistaken decayTopology "k" "Mass_Action"
      (by decide +kernel)
    refine hrefused ?_ overridable_rateMistaken ?_
    · obtain ⟨⟨acc, r, pending⟩, hx, hk⟩ := exists_ok_of_map
        (x := do
          let acc ← accumulationOf decay rateMistaken
          let r ← activated decay rateMistaken decayTopology acc
          let pending ← seeds decay rateMistaken acc r.activation
          pure (acc, r, pending))
        (f := fun x => x.2.2.contains "k") (b := true) (by decide +kernel)
      simp only [bind_ok, pure_ok, Prod.mk.injEq] at hx
      obtain ⟨_, hacc, _, hr, _, hp, rfl, rfl, rfl⟩ := hx
      exact ⟨_, _, _, "k", hacc, hr, hp, List.contains_iff_mem.1 hk, .refl⟩
    · rintro ⟨⟨x, hx, hc⟩, -⟩
      cases hx
      cases hc

end Decay

end Model

end Kinetics

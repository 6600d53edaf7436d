import Kinetics.Proofs.Model.Definition
import Kinetics.Proofs.Model.Extent
import Mathlib.Data.List.Nodup

/-!
# Kinetics.Proofs.Model.States

Which variables a model integrates, and by which laws. The state equations are those of the
accumulation law and of the laws of phases, while a variable is defined as a state if any law that
is switched on integrates it. The two agree exactly where no other law integrates anything, and
none integrates what another one does or what is integrated over.
-/

namespace Kinetics

namespace Model

open Activation Closure

variable {o : Ontology} {s : Selection} {t : Topology} {m : Model} {v l : String}

/-- The law that is switched on integrates the variable. -/
def Integrates (o : Ontology) (s : Selection) (t : Topology) (l v : String) : Prop :=
  ∃ law, o.SwitchesOn s t l law ∧ law.differentialVariable = some v

/-- The law is the one of the accumulation. -/
def Accumulates (o : Ontology) (s : Selection) (l : String) : Prop :=
  ∃ law, o.laws.find? l = some law ∧ law.phenomenon = some s.accumulation

/-- The states and the definitions of a model agree, with a state for each law that integrates. -/
structure Agrees (o : Ontology) (s : Selection) (t : Topology) (m : Model) : Prop where
  distinct : (m.states.map StateEquation.name).Nodup
  defined : ∀ v l, m.definitions.find? v = some (.state l) ↔ ∃ e ∈ m.states, e.name = v ∧ e.law = l
  owned : ∀ l v, Integrates o s t l v → ∃ e ∈ m.states, e.name = v ∧ e.law = l

/-- Only the accumulation law and the laws of phases integrate, each in one place, and each a
variable of its own that is not integrated over. -/
structure Consistent (o : Ontology) (s : Selection) (t : Topology) : Prop where
  placed : ∀ l v, Integrates o s t l v → Accumulates o s l ∨ ∃ k, o.Accompanies s t k l
  once : ∀ l v, Integrates o s t l v → (Accumulates o s l → ∀ k, ¬o.Accompanies s t k l) ∧
    ∀ j k, o.Accompanies s t j l → o.Accompanies s t k l → j = k
  single : ∀ l l' v, Integrates o s t l v → Integrates o s t l' v → l = l'
  free : ∀ l v, Integrates o s t l v → ∀ l' law, o.laws.find? l' = some law →
    law.phenomenon = some s.accumulation → law.integralVariable ≠ some v

section Resolved

variable {acc : Accumulation} {r : Activated} {e : StateEquation}

theorem accumulates_iff (hacc : accumulationOf o s = .ok acc) :
    Accumulates o s l ↔ l = acc.name := by
  simp only [Accumulates, mem_accumulation hacc, exists_and_left, exists_eq, and_true]

/-- The main state is what the accumulation law integrates. -/
theorem eq_main_iff (hacc : accumulationOf o s = .ok acc) : e = ⟨acc.state, acc.name, none⟩ ↔
    e.phase = none ∧ Integrates o s t e.law e.name ∧ Accumulates o s e.law := by
  obtain ⟨-, hstate, -, -⟩ := accumulationOf_declares hacc
  obtain ⟨hl, hp⟩ := (mem_accumulation hacc).2 ⟨rfl, rfl⟩
  rw [accumulates_iff hacc]
  constructor
  · rintro rfl
    exact ⟨rfl, ⟨acc.law, ⟨hl, .inl ⟨_, hp, .inl rfl⟩⟩, hstate⟩, rfl⟩
  · rintro ⟨hk, ⟨law, hs, hv⟩, hname⟩
    rw [hname] at hs
    cases hl.symm.trans hs.1
    rw [hstate] at hv
    obtain ⟨name, law, phase⟩ := e
    cases hk
    cases hname
    cases hv
    rfl

theorem mem_phaseStates {k : Phase} {ls : List (String × Law)} : e ∈ phaseStates k ls ↔
    e.phase = some k ∧ ∃ law, (e.law, law) ∈ ls ∧ law.differentialVariable = some e.name := by
  simp only [phaseStates, List.mem_filterMap, Option.map_eq_some_iff]
  constructor
  · rintro ⟨⟨l, law⟩, hm, v, hv, rfl⟩
    exact ⟨rfl, law, hm, hv⟩
  · rintro ⟨hk, law, hm, hv⟩
    exact ⟨(e.law, law), hm, e.name, hv, by rw [← hk]⟩

theorem nodup_phaseStates {k : Phase} {ls : List (String × Law)} (h : ls.length ≤ 1) :
    (phaseStates k ls).Nodup := by
  cases ls with
  | nil => exact List.nodup_nil
  | cons x xs =>
    cases List.eq_nil_of_length_eq_zero (Nat.le_zero.1 (Nat.le_of_succ_le_succ h))
    cases hx : x.2.differentialVariable <;> simp [phaseStates, hx]

theorem mem_phaseStates_phaseLaws {k : Phase} : e ∈ phaseStates k (phaseLaws o s t k) ↔
    e.phase = some k ∧ Integrates o s t e.law e.name ∧ o.Accompanies s t k e.law := by
  rw [mem_phaseStates]
  refine and_congr_right fun _ => ?_
  constructor
  · rintro ⟨law, hm, hv⟩
    obtain ⟨hl, hk⟩ := mem_phaseLaws.1 hm
    exact ⟨⟨law, ⟨hl, .inr ⟨k, hk⟩⟩, hv⟩, hk⟩
  · rintro ⟨⟨law, hs, hv⟩, hk⟩
    exact ⟨law, mem_phaseLaws.2 ⟨hs.1, hk⟩, hv⟩

variable (h : resolve o s t = .ok m)
include h

/-- A state is that of the accumulation law, or that of the law of a phase. -/
theorem mem_states : e ∈ m.states ↔ Integrates o s t e.law e.name ∧
    ((e.phase = none ∧ Accumulates o s e.law) ∨
      ∃ k, e.phase = some k ∧ o.Accompanies s t k e.law) := by
  obtain ⟨acc, r, _, _, hacc, hr, -, -, -, -, -, -, -, hstates, -⟩ := resolve_ok h
  obtain ⟨-, hphases, -⟩ := activated_reflects hacc hr
  rw [hstates, hphases, List.mem_cons, List.mem_append, eq_main_iff (t := t) hacc,
    mem_phaseStates_phaseLaws, mem_phaseStates_phaseLaws]
  constructor
  · rintro (⟨hk, hi, ha⟩ | ⟨hk, hi, ha⟩ | ⟨hk, hi, ha⟩)
    · exact ⟨hi, .inl ⟨hk, ha⟩⟩
    · exact ⟨hi, .inr ⟨_, hk, ha⟩⟩
    · exact ⟨hi, .inr ⟨_, hk, ha⟩⟩
  · rintro ⟨hi, ⟨hk, ha⟩ | ⟨k, hk, ha⟩⟩
    · exact .inl ⟨hk, hi, ha⟩
    · cases k
      · exact .inr (.inl ⟨hk, hi, ha⟩)
      · exact .inr (.inr ⟨hk, hi, ha⟩)

theorem nodup_states : m.states.Nodup := by
  obtain ⟨acc, r, _, _, hacc, hr, -, -, -, -, -, -, -, hstates, -⟩ := resolve_ok h
  obtain ⟨-, hphases, hone⟩ := activated_reflects hacc hr
  rw [hstates, hphases, List.nodup_cons, List.nodup_append]
  refine ⟨fun hm => ?_, nodup_phaseStates (hone .gas), nodup_phaseStates (hone .solid),
    fun e he e' he' heq => ?_⟩
  · rcases List.mem_append.1 hm with hm | hm <;> cases (mem_phaseStates.1 hm).1
  · have hk := (mem_phaseStates.1 he).1.symm.trans (heq ▸ (mem_phaseStates.1 he').1)
    cases hk

/-- A variable is defined as a state by a law that integrates it. -/
theorem integrates_of_state (hd : m.definitions.find? v = some (.state l)) :
    Integrates o s t l v := by
  obtain ⟨a, hreflects, hjust, -⟩ := resolve_reflects h
  obtain ⟨x, -, hdef⟩ := hjust v _ hd
  obtain ⟨law, hm, hv⟩ := hreflects.integrating v l (definitionOf_state.1 hdef).2
  exact ⟨law, mem_switchedOn.1 hm, hv⟩

/-- What a law integrates is defined as a state, unless it is what is integrated over. -/
theorem state_of_integrates (hi : Integrates o s t l v) (hv : v ≠ m.integralVariable) :
    ∃ l', m.definitions.find? v = some (.state l') := by
  obtain ⟨a, hreflects, hjust, hcomplete⟩ := resolve_reflects h
  obtain ⟨law, hs, hlaw⟩ := hi
  obtain ⟨d, hd⟩ := Option.isSome_iff_exists.1 (hcomplete.integrated l law v hs hlaw)
  obtain ⟨l', hl'⟩ := Option.isSome_iff_exists.1
    (hreflects.integrated v l ⟨law, mem_switchedOn.2 hs, hlaw⟩)
  obtain ⟨x, -, hdef⟩ := hjust v d hd
  cases hdef.symm.trans (definitionOf_state.2 ⟨hv, hl'⟩)
  exact ⟨l', hd⟩

/-- The variables of a model come from the ontology, and its states are defined as such. -/
theorem resolve_defines :
    (∀ name, m.definitions.contains name = true → ∃ v, o.variableOf name = .ok v) ∧
      ∀ e ∈ m.states, e.name ≠ m.integralVariable →
        ∃ law, m.definitions.find? e.name = some (.state law) := by
  refine ⟨fun name hc => ?_, fun e he hne => state_of_integrates h ((mem_states h).1 he).1 hne⟩
  obtain ⟨_, -, hjust, -⟩ := resolve_reflects h
  obtain ⟨d, hd⟩ := Option.isSome_iff_exists.1 hc
  obtain ⟨x, hx, -⟩ := hjust name d hd
  exact ⟨x, hx⟩

theorem integralVariable_iff : v = m.integralVariable ↔ ∃ l law, o.laws.find? l = some law ∧
    law.phenomenon = some s.accumulation ∧ law.integralVariable = some v := by
  obtain ⟨acc, _, _, _, hacc, -, -, -, -, -, -, hintegral, -⟩ := resolve_ok h
  obtain ⟨-, -, hvariable, -⟩ := accumulationOf_declares hacc
  simp only [← and_assoc, mem_accumulation hacc]
  constructor
  · rintro rfl
    exact ⟨acc.name, acc.law, ⟨rfl, rfl⟩, hintegral ▸ hvariable⟩
  · rintro ⟨_, _, ⟨rfl, rfl⟩, hv⟩
    rw [hvariable] at hv
    rw [hintegral, Option.some.inj hv]

/-- What is integrated over is not a state. -/
theorem ne_integralVariable_of_state (hd : m.definitions.find? v = some (.state l)) :
    v ≠ m.integralVariable := by
  obtain ⟨_, -, hjust, -⟩ := resolve_reflects h
  obtain ⟨x, -, hdef⟩ := hjust v _ hd
  exact (definitionOf_state.1 hdef).1

theorem Agrees.consistent (hm : Agrees o s t m) : Consistent o s t := by
  -- two states of one variable are the same state
  have heq : ∀ e ∈ m.states, ∀ e' ∈ m.states, e.name = e'.name → e = e' :=
    fun e he e' he' hn => List.inj_on_of_nodup_map hm.distinct he he' hn
  constructor
  case placed =>
    intro l v hi
    obtain ⟨e, he, rfl, rfl⟩ := hm.owned l v hi
    rcases ((mem_states h).1 he).2 with ⟨-, ha⟩ | ⟨k, -, hk⟩
    · exact .inl ha
    · exact .inr ⟨k, hk⟩
  case once =>
    intro l v hi
    have hphase : ∀ k, o.Accompanies s t k l → ⟨v, l, some k⟩ ∈ m.states := fun k hk =>
      (mem_states h).2 ⟨hi, .inr ⟨k, rfl, hk⟩⟩
    refine ⟨fun ha k hk => ?_, fun j k hj hk => ?_⟩
    · cases heq _ (hphase k hk) ⟨v, l, none⟩ ((mem_states h).2 ⟨hi, .inl ⟨rfl, ha⟩⟩) rfl
    · cases heq _ (hphase j hj) _ (hphase k hk) rfl
      rfl
  case single =>
    intro l l' v hl hl'
    obtain ⟨e, he, hv, rfl⟩ := hm.owned l v hl
    obtain ⟨e', he', hv', rfl⟩ := hm.owned l' v hl'
    rw [heq e he e' he' (hv.trans hv'.symm)]
  case free =>
    intro l v hi l' law hl' hp hv
    have hd := (hm.defined v l).2 (hm.owned l v hi)
    exact ne_integralVariable_of_state h hd ((integralVariable_iff h).2 ⟨l', law, hl', hp, hv⟩)

theorem Consistent.exists_state (ho : Consistent o s t) (hi : Integrates o s t l v) :
    ∃ e ∈ m.states, e.name = v ∧ e.law = l := by
  rcases ho.placed l v hi with ha | ⟨k, hk⟩
  · exact ⟨⟨v, l, none⟩, (mem_states h).2 ⟨hi, .inl ⟨rfl, ha⟩⟩, rfl, rfl⟩
  · exact ⟨⟨v, l, some k⟩, (mem_states h).2 ⟨hi, .inr ⟨k, rfl, hk⟩⟩, rfl, rfl⟩

theorem Consistent.agrees (ho : Consistent o s t) : Agrees o s t m := by
  constructor
  case distinct =>
    refine (nodup_states h).map_on fun e he e' he' hn => ?_
    obtain ⟨hi, hkind⟩ := (mem_states h).1 he
    obtain ⟨hi', hkind'⟩ := (mem_states h).1 he'
    have hl : e.law = e'.law := ho.single _ _ _ hi (hn ▸ hi')
    have hk : e.phase = e'.phase := by
      obtain ⟨hmain, hphase⟩ := ho.once _ _ hi
      rw [← hl] at hkind'
      rcases hkind with ⟨hk, ha⟩ | ⟨k, hk, ha⟩ <;> rcases hkind' with ⟨hk', ha'⟩ | ⟨k', hk', ha'⟩
      · rw [hk, hk']
      · exact absurd ha' (hmain ha k')
      · exact absurd ha (hmain ha' k)
      · rw [hk, hk', hphase k k' ha ha']
    cases e
    cases e'
    simp_all only
  case owned =>
    intro l v hi
    exact ho.exists_state h hi
  case defined =>
    intro v l
    constructor
    · intro hd
      exact ho.exists_state h (integrates_of_state h hd)
    · rintro ⟨e, he, rfl, rfl⟩
      obtain ⟨hi, -⟩ := (mem_states h).1 he
      have hfree : e.name ≠ m.integralVariable := by
        intro hv
        obtain ⟨l', law, hl', hp, hlaw⟩ := (integralVariable_iff h).1 hv
        exact ho.free _ _ hi l' law hl' hp hlaw
      obtain ⟨l', hd⟩ := state_of_integrates h hi hfree
      rwa [← ho.single _ _ _ (integrates_of_state h hd) hi]

/-- Each state is integrated by the law it names, and a variable is defined as a state where any law
that is switched on integrates it and it is not what is integrated over. For states and definitions
to agree takes more, and no model is refused for the lack of it. -/
theorem states_agree_iff :
    (∀ e ∈ m.states, Integrates o s t e.law e.name) ∧
    (∀ v l, m.definitions.find? v = some (.state l) → Integrates o s t l v) ∧
    (∀ v, (∃ l, m.definitions.find? v = some (.state l)) ↔
      v ≠ m.integralVariable ∧ ∃ l, Integrates o s t l v) ∧
    (Agrees o s t m ↔ Consistent o s t) := by
  refine ⟨fun e he => ((mem_states h).1 he).1, fun v l hd => integrates_of_state h hd, fun v => ?_,
    fun hm => hm.consistent h, fun ho => ho.agrees h⟩
  constructor
  · rintro ⟨l, hd⟩
    exact ⟨ne_integralVariable_of_state h hd, l, integrates_of_state h hd⟩
  · rintro ⟨hv, l, hi⟩
    exact state_of_integrates h hi hv

end Resolved

section Drift

/-- A balance of `C`, with a flow pattern whose law integrates `D`. -/
def drift : Ontology where
  quantities := Dict.ofList
    [("C", ⟨.stateVariable, "C", none, Dict.empty, Dict.empty, none⟩),
      ("D", ⟨.stateVariable, "D", none, Dict.empty, Dict.empty, none⟩),
      ("t", ⟨.independentVariable, "t", none, Dict.empty, Dict.empty, none⟩),
      ("tf", ⟨.operationParameter, "tf", none, Dict.empty, Dict.empty, none⟩)]
  laws := Dict.ofList
    [("Balance", ⟨"<mi>D</mi>", some "Batch", OrderedSet.ofList ["D"], Dict.empty, none, none,
        some "t", some "tf", some "C", none⟩),
      ("Drift_Law", ⟨"<mi>C</mi>", some "Drift", OrderedSet.ofList ["C"], Dict.empty, none, none,
        none, none, some "D", none⟩)]
  units := Dict.empty

def batch (flow : String) : Selection :=
  { Selection.empty with accumulation := "Batch", flowPattern := flow }

def plainTopology : Topology :=
  ⟨["A"], [], [], [], []⟩

/-- The one law of the decay that integrates is that of its accumulation. -/
theorem consistent_decay : Consistent decay decaySelection decayTopology := by
  have hone : ∀ l v, Integrates decay decaySelection decayTopology l v → l = "Balance" ∧ v = "C" := by
    have hall : ∀ e ∈ switchedOn decay decaySelection decayTopology,
        ∀ v ∈ e.2.differentialVariable, e.1 = "Balance" ∧ v = "C" := by decide +kernel
    rintro l v ⟨law, hs, hv⟩
    exact hall _ (mem_switchedOn.2 hs) v hv
  have hnone : ∀ k l, ¬decay.Accompanies decaySelection decayTopology k l := by
    rintro k l ⟨-, carrier, law, p, -, -, hp, -⟩
    cases hp
  have hmain : ∀ e ∈ decay.laws.entries,
      e.2.phenomenon = some "Batch" ↔ e.1 = "Balance" := by decide +kernel
  have hover : ∀ e ∈ decay.laws.entries, e.2.integralVariable ≠ some "C" := by decide +kernel
  constructor
  case placed =>
    intro l v hi
    obtain ⟨rfl, rfl⟩ := hone l v hi
    obtain ⟨law, ⟨hl, -⟩, -⟩ := hi
    exact .inl ⟨law, hl, (hmain _ (Dict.find?_eq_some_iff.1 hl)).2 rfl⟩
  case once =>
    intro l v _
    exact ⟨fun _ k => hnone k l, fun j _ hj => absurd hj (hnone j l)⟩
  case single =>
    intro l l' v hl hl'
    rw [(hone l v hl).1, (hone l' v hl').1]
  case free =>
    rintro l v hi l' law hl' -
    obtain ⟨rfl, rfl⟩ := hone l v hi
    exact hover _ (Dict.find?_eq_some_iff.1 hl')

/-- The decay has a state for what it integrates; the drift integrates `D` without one. -/
theorem states_agree_iff_drift :
    (∃ m, resolve decay decaySelection decayTopology = .ok m ∧
      Agrees decay decaySelection decayTopology m) ∧
    ∃ m, resolve drift (batch "Drift") plainTopology = .ok m ∧
      m.definitions.find? "D" = some (.state "Drift_Law") ∧
      m.states = [⟨"C", "Balance", none⟩] ∧
      ¬Agrees drift (batch "Drift") plainTopology m := by
  constructor
  · obtain ⟨m, hm, -⟩ := resolve_decay
    exact ⟨m, hm, (states_agree_iff hm).2.2.2.2 consistent_decay⟩
  · obtain ⟨m, hm, hstates⟩ := exists_ok_of_map (x := resolve drift (batch "Drift") plainTopology)
      (f := fun m : Model => (m.definitions.find? "D", m.states))
      (b := (some (.state "Drift_Law"), [⟨"C", "Balance", none⟩])) (by decide +kernel)
    obtain ⟨hd, hstates⟩ := Prod.mk.inj hstates
    refine ⟨m, hm, hd, hstates, fun hagrees => ?_⟩
    obtain ⟨-, hdefined, -, hiff⟩ := states_agree_iff hm
    rcases (hiff.1 hagrees).placed _ _ (hdefined _ _ hd) with ⟨law, hl, hp⟩ | ⟨k, -, hk⟩
    · have hmain : ∀ e ∈ drift.laws.entries, e.2.phenomenon = some "Batch" → e.1 = "Balance" := by
        decide +kernel
      have hname : "Drift_Law" = "Balance" := hmain _ (Dict.find?_eq_some_iff.1 hl) hp
      exact absurd hname (by decide)
    · obtain ⟨carrier, law, p, -, -, hp, -⟩ := hk
      cases hp

end Drift

end Model

end Kinetics

import Kinetics.Model.Resolve
import Kinetics.Proofs.Fallible
import Kinetics.Proofs.Model.Closure
import Kinetics.Proofs.Model.Order

/-!
# Kinetics.Proofs.Model.Resolve

What resolving a context gives. The steps of `resolve` are taken apart once, and the dependencies
by which the computed variables are ordered are told by the laws: a variable depends on the
computed ones among the inputs that its laws declare.
-/

namespace Kinetics

namespace Model

open Relation

variable {o : Ontology} {s : Selection} {t : Topology} {a : Activation}
  {defs : Dict String Definition}

def Computes (defs : Dict String Definition) (name : String) : Prop :=
  ∃ d, defs.find? name = some d ∧ d.isComputed = true

/-- A law of a computed variable declares the other one, which is computed, too, as an input. -/
def Declares (o : Ontology) (s : Selection) (a : Activation) (defs : Dict String Definition)
    (name other : String) : Prop :=
  ∃ d law l, defs.find? name = some d ∧ d.isComputed = true ∧ law ∈ d.laws ∧
    o.lawOf law = .ok l ∧ other ∈ (a.inputs s l).toList ∧ Computes defs other

/-- The definitions are those of the variables that a selection brings in. -/
def Closes (o : Ontology) (s : Selection) (t : Topology) (a : Activation)
    (defs : Dict String Definition) : Prop :=
  ∃ acc r pending, accumulationOf o s = .ok acc ∧ activated o s t acc = .ok r ∧
    r.activation = a ∧ seeds o s acc a = .ok pending ∧
    Closure.close o s a acc.integralVariable Dict.empty pending.reverse = .ok defs

theorem mem_inputsOf {laws names : List String} {other : String}
    (h : a.inputsOf o s laws = .ok names) :
    other ∈ names ↔ ∃ law l, law ∈ laws ∧ o.lawOf law = .ok l ∧ other ∈ (a.inputs s l).toList := by
  induction laws generalizing names with
  | nil =>
    cases h
    simp
  | cons law laws ih =>
    simp only [Activation.inputsOf] at h
    split at h
    · cases h
    · rename_i l hl
      split at h
      · cases h
      · rename_i rest hr
        cases h
        rw [List.mem_append, ih hr]
        constructor
        · rintro (hin | ⟨law', l', hm, hl', hin⟩)
          · exact ⟨law, l, by simp, hl, hin⟩
          · exact ⟨law', l', List.mem_cons_of_mem _ hm, hl', hin⟩
        · rintro ⟨law', l', hm, hl', hin⟩
          rcases List.mem_cons.1 hm with rfl | hm
          · rw [hl] at hl'
            cases hl'
            exact .inl hin
          · exact .inr ⟨law', l', hm, hl', hin⟩

theorem mem_dependenciesOf {d : Definition} {names : NameSet} {other : String}
    (h : dependenciesOf o s a defs d = .ok names) :
    other ∈ names.toList ↔ Computes defs other ∧
      ∃ law l, law ∈ d.laws ∧ o.lawOf law = .ok l ∧ other ∈ (a.inputs s l).toList := by
  simp only [dependenciesOf] at h
  split at h
  · cases h
  · rename_i inputs hi
    cases h
    rw [OrderedSet.mem_toList_ofList, List.mem_filter, mem_inputsOf hi, Option.any_eq_true]
    constructor
    · rintro ⟨hin, d', hd, hc⟩
      exact ⟨⟨d', hd, hc⟩, hin⟩
    · rintro ⟨⟨d', hd, hc⟩, hin⟩
      exact ⟨hin, d', hd, hc⟩

theorem of_dependencies {ds : List (String × Definition)} {deps : Dict String NameSet}
    {name : String} {names : NameSet} (h : dependencies o s a defs ds = .ok deps)
    (hf : deps.find? name = some names) :
    ∃ d, (name, d) ∈ ds ∧ d.isComputed = true ∧ dependenciesOf o s a defs d = .ok names := by
  induction ds generalizing deps with
  | nil =>
    cases h
    cases hf
  | cons e ds ih =>
    obtain ⟨other, d⟩ := e
    simp only [dependencies] at h
    split at h
    · rename_i hd
      split at h
      · cases h
      · rename_i ns hns
        split at h
        · cases h
        · rename_i rest hr
          cases h
          rw [Dict.find?_insert] at hf
          split at hf
          · rename_i hc
            cases hf
            cases Std.LawfulEqOrd.eq_of_compare hc
            exact ⟨d, by simp, hd, hns⟩
          · obtain ⟨d', hm, hd', hn'⟩ := ih hr hf
            exact ⟨d', List.mem_cons_of_mem _ hm, hd', hn'⟩
    · obtain ⟨d', hm, hd', hn'⟩ := ih h hf
      exact ⟨d', List.mem_cons_of_mem _ hm, hd', hn'⟩

theorem mem_keys_dependencies {ds : List (String × Definition)} {deps : Dict String NameSet}
    {name : String} {d : Definition} (h : dependencies o s a defs ds = .ok deps)
    (hm : (name, d) ∈ ds) (hd : d.isComputed = true) : name ∈ deps.keys := by
  rw [← Dict.contains_iff]
  induction ds generalizing deps with
  | nil => cases hm
  | cons e ds ih =>
    obtain ⟨other, d'⟩ := e
    simp only [dependencies] at h
    rcases List.mem_cons.1 hm with he | hm
    · cases he
      rw [if_pos hd] at h
      split at h
      · cases h
      · split at h
        · cases h
        · cases h
          simp [Dict.contains_insert]
    · split at h
      · split at h
        · cases h
        · split at h
          · cases h
          · rename_i rest hr
            cases h
            simp [Dict.contains_insert, ih hr hm]
      · exact ih h hm

section Dependencies

variable {deps : Dict String NameSet}

theorem mem_keys_iff_computes (h : dependencies o s a defs defs.entries = .ok deps)
    {name : String} : name ∈ deps.keys ↔ Computes defs name := by
  constructor
  · intro hn
    rw [← Dict.contains_iff, Dict.contains, Option.isSome_iff_exists] at hn
    obtain ⟨names, hn⟩ := hn
    obtain ⟨d, hm, hd, -⟩ := of_dependencies h hn
    exact ⟨d, Dict.find?_eq_some_iff.2 hm, hd⟩
  · rintro ⟨d, hf, hd⟩
    exact mem_keys_dependencies h (Dict.find?_eq_some_iff.1 hf) hd

theorem needs_iff_declares (h : dependencies o s a defs defs.entries = .ok deps)
    {name other : String} : Order.Needs deps name other ↔ Declares o s a defs name other := by
  constructor
  · rintro ⟨ds, hf, hin⟩
    obtain ⟨d, hm, hd, hn⟩ := of_dependencies h hf
    obtain ⟨hc, law, l, hlaw, hl, hin⟩ := (mem_dependenciesOf hn).1 hin
    exact ⟨d, law, l, Dict.find?_eq_some_iff.2 hm, hd, hlaw, hl, hin, hc⟩
  · rintro ⟨d, law, l, hf, hd, hlaw, hl, hin, hc⟩
    have hk := (mem_keys_iff_computes h).2 ⟨d, hf, hd⟩
    rw [← Dict.contains_iff, Dict.contains, Option.isSome_iff_exists] at hk
    obtain ⟨ds, hds⟩ := hk
    obtain ⟨d', hm, -, hn⟩ := of_dependencies h hds
    have hsame := Dict.find?_eq_some_iff.2 hm
    rw [hf] at hsame
    cases hsame
    exact ⟨ds, hds, (mem_dependenciesOf hn).2 ⟨hc, law, l, hlaw, hl, hin⟩⟩

/-- Every dependency is listed with dependencies of its own. -/
theorem dependencies_listed (h : dependencies o s a defs defs.entries = .ok deps)
    (name other : String) (hn : Order.Needs deps name other) : other ∈ deps.keys := by
  obtain ⟨_, _, _, _, _, _, _, _, hc⟩ := (needs_iff_declares h).1 hn
  exact (mem_keys_iff_computes h).2 hc

theorem order_sorted {order : List String} (h : dependencies o s a defs defs.entries = .ok deps)
    (ho : Order.ofDependencies deps = .ok order) :
    Order.Sorted deps order ∧ ∀ name, name ∈ order ↔ Computes defs name := by
  obtain ⟨hs, hm⟩ := Order.ofDependencies_sorted ho (dependencies_listed h)
  exact ⟨hs, fun name => (hm name).trans (mem_keys_iff_computes h)⟩

end Dependencies

theorem resolve_ok {m : Model} (h : resolve o s t = .ok m) :
    ∃ acc r pending deps, accumulationOf o s = .ok acc ∧ activated o s t acc = .ok r ∧
      seeds o s acc r.activation = .ok pending ∧
      Closure.close o s r.activation acc.integralVariable Dict.empty pending.reverse =
        .ok m.definitions ∧
      dependencies o s r.activation m.definitions m.definitions.entries = .ok deps ∧
      Order.ofDependencies deps = .ok m.order ∧
      m.accumulation = acc.name ∧ m.integralVariable = acc.integralVariable ∧
      m.upperLimit = acc.upperLimit ∧
      m.states = ⟨acc.state, acc.name, none⟩ :: r.phaseStates ∧ m.jointLaw = r.jointLaw := by
  simp only [resolve, bind_ok] at h
  obtain ⟨acc, hacc, r, hr, pending, hp, defs, hd, deps, hdeps, order, ho, h⟩ := h
  cases h
  exact ⟨acc, r, pending, deps, hacc, hr, hp, hd, hdeps, ho, rfl, rfl, rfl, rfl, rfl⟩

theorem resolve_closes {m : Model} (h : resolve o s t = .ok m) :
    ∃ a deps, Closes o s t a m.definitions ∧
      dependencies o s a m.definitions m.definitions.entries = .ok deps ∧
      Order.ofDependencies deps = .ok m.order := by
  obtain ⟨acc, r, pending, deps, hacc, hr, hp, hd, hdeps, ho, -⟩ := resolve_ok h
  exact ⟨r.activation, deps, ⟨acc, r, pending, hacc, hr, rfl, hp, hd⟩, hdeps, ho⟩

/-- Where a variable depends on itself by what laws declare, there is no model. -/
theorem resolve_cyclic {deps : Dict String NameSet} {name : String} (hc : Closes o s t a defs)
    (hdeps : dependencies o s a defs defs.entries = .ok deps)
    (hn : TransGen (Declares o s a defs) name name) :
    ∃ e, resolve o s t = .error e ∧ e.report.code = .circularDependency := by
  obtain ⟨acc, r, pending, hacc, hr, rfl, hp, hd⟩ := hc
  cases ho : Order.ofDependencies deps with
  | error e =>
    refine ⟨e, ?_, Order.ofDependencies_error (dependencies_listed hdeps) ho⟩
    simp only [resolve, hacc, hr, hp, hd, hdeps, ho, bind, Except.bind]
  | ok order =>
    obtain ⟨hs, hm⟩ := order_sorted hdeps ho
    have hneeds : TransGen (Order.Needs deps) name name :=
      hn.lift id fun _ _ h => (needs_iff_declares hdeps).2 h
    obtain ⟨_, ⟨d, _, _, hf, hcomp, _⟩, _⟩ := TransGen.head'_iff.1 hn
    exact absurd hneeds (hs.acyclic ((hm name).2 ⟨d, hf, hcomp⟩))

end Model

end Kinetics

import Kinetics.Program.Plan
import Kinetics.Proofs.Fallible

/-!
# Kinetics.Proofs.Program.Plan

The steps of planning a program, and what is collected over a list: the results of its parts, in
the order of the parts.
-/

namespace Kinetics

namespace Program

section Collect

variable {α β : Type} {f : α → Except Fault (List β)} {a : α} {as bs : List α} {rs : List β}

theorem collect_cons_ok :
    collect f (a :: as) = .ok rs ↔
      ∃ first rest, f a = .ok first ∧ collect f as = .ok rest ∧ rs = first ++ rest := by
  simp only [collect, bind_ok, pure_ok]
  constructor
  · rintro ⟨first, hf, rest, hr, rfl⟩
    exact ⟨first, rest, hf, hr, rfl⟩
  · rintro ⟨first, rest, hf, hr, rfl⟩
    exact ⟨first, hf, rest, hr, rfl⟩

theorem collect_append_ok :
    collect f (as ++ bs) = .ok rs ↔
      ∃ left right, collect f as = .ok left ∧ collect f bs = .ok right ∧ rs = left ++ right := by
  induction as generalizing rs with
  | nil =>
    constructor
    · intro h
      exact ⟨[], rs, rfl, h, rfl⟩
    · rintro ⟨left, right, hl, hr, rfl⟩
      cases hl
      exact hr
  | cons a as ih =>
    rw [List.cons_append, collect_cons_ok]
    constructor
    · rintro ⟨first, rest, hf, hrest, rfl⟩
      obtain ⟨left, right, hl, hr, rfl⟩ := ih.1 hrest
      exact ⟨first ++ left, right, collect_cons_ok.2 ⟨first, left, hf, hl, rfl⟩, hr, by simp⟩
    · rintro ⟨left, right, hl, hr, rfl⟩
      obtain ⟨first, rest, hf, hrest, rfl⟩ := collect_cons_ok.1 hl
      exact ⟨first, rest ++ right, hf, ih.2 ⟨rest, right, hrest, hr, rfl⟩, by simp⟩

/-- The results of one part lie between those of the parts around it. -/
theorem collect_split {before after : List α} (h : collect f (before ++ a :: after) = .ok rs) :
    ∃ left own right, collect f before = .ok left ∧ f a = .ok own ∧
      collect f after = .ok right ∧ rs = left ++ own ++ right := by
  obtain ⟨left, rest, hl, hr, rfl⟩ := collect_append_ok.1 h
  obtain ⟨own, right, ho, hright, rfl⟩ := collect_cons_ok.1 hr
  exact ⟨left, own, right, hl, ho, hright, by simp⟩

theorem mem_collect {b : β} (h : collect f as = .ok rs) :
    b ∈ rs ↔ ∃ a ∈ as, ∃ bs, f a = .ok bs ∧ b ∈ bs := by
  induction as generalizing rs with
  | nil =>
    cases h
    simp
  | cons a as ih =>
    obtain ⟨first, rest, hf, hr, rfl⟩ := collect_cons_ok.1 h
    rw [List.mem_append, ih hr]
    constructor
    · rintro (hb | ⟨a', ha', hrest⟩)
      · exact ⟨a, by simp, first, hf, hb⟩
      · exact ⟨a', List.mem_cons_of_mem _ ha', hrest⟩
    · rintro ⟨a', ha', bs, hbs, hb⟩
      rcases List.mem_cons.1 ha' with rfl | ha'
      · rw [hf] at hbs
        cases hbs
        exact .inl hb
      · exact .inr ⟨a', ha', bs, hbs, hb⟩

/-- What holds of the results of every part holds of all that is collected. -/
theorem forall_of_collect {P : β → Prop} (h : collect f as = .ok rs)
    (hf : ∀ a ∈ as, ∀ bs, f a = .ok bs → ∀ b ∈ bs, P b) : ∀ b ∈ rs, P b := by
  intro b hb
  obtain ⟨a, ha, bs, hbs, hb⟩ := (mem_collect h).1 hb
  exact hf a ha bs hbs b hb

/-- A function that yields over a list yields for each element of it. -/
theorem exists_of_collect (h : collect f as = .ok rs) (ha : a ∈ as) : ∃ bs, f a = .ok bs := by
  obtain ⟨before, after, rfl⟩ := List.append_of_mem ha
  obtain ⟨_, own, _, -, hown, -, -⟩ := collect_split h
  exact ⟨own, hown⟩

end Collect

namespace Plan

theorem ofModel_ok {o : Ontology} {kind : ModelKind} {options : SolverOptions} {t : Topology}
    {m : Model} {plan : Formula.Noted Plan} (h : ofModel o kind options t m = .ok plan) :
    ∃ bound names states formulas,
      Names.bindAll o Names.empty m.definitions.keys = .ok bound ∧
      VectorBlock.layAll t bound.result m.jointLaw.isSome 0 m.states = .ok (names, states) ∧
      Formulas.ofModel o m names = .ok formulas ∧
      plan.result = ⟨o, kind, options, t, m, names, formulas.result, states⟩ := by
  simp only [ofModel, bind_ok, pure_ok] at h
  obtain ⟨bound, hb, ⟨names, states⟩, hl, formulas, hf, rfl⟩ := h
  exact ⟨bound, names, states, formulas, hb, hl, hf, rfl⟩

end Plan

end Program

end Kinetics

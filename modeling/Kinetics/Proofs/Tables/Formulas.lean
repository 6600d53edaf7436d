import Kinetics.Proofs.Genuine.Program

/-!
# Kinetics.Proofs.Tables.Formulas

Which formula is kept under which key. Every law that a computed variable or a state draws on is
compiled and kept under its name. The formula that is integrated jointly is kept last, under its
law's name with a suffix, and takes over the place of a law that goes by this name.
-/

namespace Kinetics

/-- A computed variable or a state of the model draws on the law. -/
def Model.Draws (m : Model) (law : String) : Prop :=
  (∃ name d, m.definitions.find? name = some d ∧ d.isComputed = true ∧ law ∈ d.laws) ∨
    ∃ e ∈ m.states, e.law = law

namespace Program

open Formula

namespace Formulas

variable {o : Ontology} {s : Selection} {t : Topology} {m : Model} {selected : NameSet} {n : Names}
  {fs : Formulas} {law : String} {laws : List String} {out : Noted Formulas} {e : Expression}

/-- One of the formulas of a law, compiled. -/
def compiled (o : Ontology) (selected : NameSet) (n : Names) (law : String)
    (markup : Law → String) : Except Fault Expression := do
  let l ← o.lawOf law
  let e ← ofLaw o selected n l law (markup l)
  return e.result

/-- The formula that is integrated jointly. -/
def jointMarkup (l : Law) : String :=
  l.jointFormula.getD ""

theorem compiled_ok {markup : Law → String} : compiled o selected n law markup = .ok e ↔
    ∃ l, o.lawOf law = .ok l ∧ ∃ formula, ofLaw o selected n l law (markup l) = .ok formula ∧
      e = formula.result := by
  simp only [compiled, bind_ok, pure_ok, @eq_comm _ e]

/-- Compiling a list of laws keeps each one's formula under its name, and leaves the rest alone. -/
theorem find?_ofLaws (h : ofLaws o selected n fs laws = .ok out) (law : String) :
    (law ∈ laws → ∃ own, compiled o selected n law Law.formula = .ok own ∧
      out.result.find? law = some own) ∧
    (law ∉ laws → out.result.find? law = fs.find? law) := by
  induction laws generalizing fs out with
  | nil =>
    cases h
    exact ⟨nofun, fun _ => rfl⟩
  | cons first laws ih =>
    simp only [ofLaws, bind_ok, pure_ok] at h
    obtain ⟨l, hl, formula, hformula, rest, hrest, rfl⟩ := h
    have hown := compiled_ok.2 ⟨l, hl, formula, hformula, rfl⟩
    obtain ⟨hlisted, hother⟩ := ih hrest
    constructor
    · intro hlaw
      by_cases hlater : law ∈ laws
      · exact hlisted hlater
      · obtain rfl := (List.mem_cons.1 hlaw).resolve_right hlater
        exact ⟨_, hown, (hother hlater).trans (Dict.find?_insert_self _ _ _)⟩
    · intro hlaw
      obtain ⟨hne, hlater⟩ := not_or.1 (mt List.mem_cons.2 hlaw)
      exact (hother hlater).trans (Dict.find?_insert_of_ne hne)

/-- The joint formula is kept under its key, and the rest is left alone. -/
theorem find?_withJoint {joint : Option String}
    (h : withJoint o selected n fs joint = .ok out) (law : String) :
    (∀ l ∈ joint, ∃ e, compiled o selected n l jointMarkup = .ok e ∧
      out.result.find? (l ++ fluxSuffix) = some e) ∧
    ((∀ l ∈ joint, law ≠ l ++ fluxSuffix) → out.result.find? law = fs.find? law) := by
  cases joint with
  | none =>
    cases h
    exact ⟨nofun, fun _ => rfl⟩
  | some name =>
    simp only [withJoint, bind_ok, pure_ok] at h
    obtain ⟨l, hl, formula, hformula, rfl⟩ := h
    simp only [Option.mem_some_iff, forall_eq']
    exact ⟨⟨_, compiled_ok.2 ⟨l, hl, formula, hformula, rfl⟩, Dict.find?_insert_self _ _ _⟩,
      Dict.find?_insert_of_ne⟩

theorem mem_drawn (hm : Model.resolve o s t = .ok m) (h : lawsOf m m.order = .ok laws) :
    law ∈ ((OrderedSet.ofList laws : NameSet).addAll (m.states.map StateEquation.law)).toList ↔
      m.Draws law := by
  obtain ⟨a, deps, -, hdeps, horder⟩ := Model.resolve_closes hm
  obtain ⟨-, hcomputes⟩ := Model.order_sorted hdeps horder
  rw [OrderedSet.mem_toList_addAll, OrderedSet.mem_toList_ofList, mem_lawsOf h, List.mem_map,
    Model.Draws]
  refine or_congr ⟨?_, ?_⟩ Iff.rfl
  · rintro ⟨name, hname, d, hd, hl⟩
    obtain ⟨d', hd', hc⟩ := (hcomputes name).1 hname
    rw [hd] at hd'
    cases hd'
    exact ⟨name, d, hd, hc, hl⟩
  · rintro ⟨name, d, hd, hc, hl⟩
    exact ⟨name, (hcomputes name).2 ⟨d, hd, hc⟩, d, hd, hl⟩

/-- What is kept under a key of the compiled formulas: the law's own one, unless the joint one, which
differs from it, is kept under the same key. -/
theorem find?_ofModel (hm : Model.resolve o s t = .ok m) (h : ofModel o m n = .ok out) :
    (∀ law, m.Draws law → ∃ own, compiled o m.selected n law Law.formula = .ok own ∧
      (out.result.find? law = some own ↔ ∀ l ∈ m.jointLaw, law = l ++ fluxSuffix →
        compiled o m.selected n l jointMarkup = .ok own)) ∧
    (∀ l ∈ m.jointLaw, ∃ joint, compiled o m.selected n l jointMarkup = .ok joint ∧
      out.result.find? (l ++ fluxSuffix) = some joint) ∧
    ∀ law, out.result.find? law ≠ none →
      m.Draws law ∨ ∃ l ∈ m.jointLaw, law = l ++ fluxSuffix := by
  simp only [ofModel, bind_ok, pure_ok] at h
  obtain ⟨laws, hlaws, fs, hfs, joint, hjoint, -, -, rfl⟩ := h
  have hkey := (find?_withJoint hjoint "").1
  have hkeep (law : String) := (find?_withJoint hjoint law).2
  refine ⟨fun law hdraws => ?_, hkey, fun law hfound => ?_⟩
  · obtain ⟨own, hown, hfind⟩ := (find?_ofLaws hfs law).1 ((mem_drawn hm hlaws).2 hdraws)
    refine ⟨own, hown, fun hfinal l hl hlaw => ?_, fun hsame => ?_⟩
    · obtain ⟨e, he, hfe⟩ := hkey l hl
      rw [← hlaw, hfinal] at hfe
      cases hfe
      exact he
    · by_cases hk : ∃ l ∈ m.jointLaw, law = l ++ fluxSuffix
      · obtain ⟨l, hl, rfl⟩ := hk
        obtain ⟨e, he, hfe⟩ := hkey l hl
        rw [hsame l hl rfl] at he
        cases he
        exact hfe
      · exact (hkeep law fun l hl hlaw => hk ⟨l, hl, hlaw⟩).trans hfind
  · by_contra hnone
    obtain ⟨hdraws, hk⟩ := not_or.1 hnone
    refine hfound ((hkeep law fun l hl hlaw => hk ⟨l, hl, hlaw⟩).trans ?_)
    exact (find?_ofLaws hfs law).2 (mt (mem_drawn hm hlaws).1 hdraws)

end Formulas

end Program

end Kinetics

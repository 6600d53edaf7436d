import Kinetics.Program.Formulas
import Kinetics.Proofs.Dict
import Kinetics.Proofs.Fallible
import Kinetics.Proofs.Model.Resolve

/-!
# Kinetics.Proofs.Program.Formulas

No formula that computes a variable contains the variable's own symbol: the last step of compiling
the formulas of a model sees to it, for every computed variable and each of its laws.
-/

namespace Kinetics

namespace Program

namespace Formulas

variable {m : Model} {n : Names} {fs : Formulas} {name symbol : String}

theorem get_ok {κ α : Type} [Ord κ] {d : Dict κ α} {k : κ} {a : α} {fault : Fault} :
    d.get k fault = .ok a ↔ d.find? k = some a := by
  unfold Dict.get
  split <;> rename_i h <;> simp [h]

theorem checkLaws_ok {laws : List String} {law : String} {e : Formula.Expression}
    (h : checkLaws fs name symbol laws = .ok ()) (hm : law ∈ laws) (he : fs.find? law = some e) :
    symbol ∉ e.freeSymbols.toList := by
  induction laws with
  | nil => cases hm
  | cons other laws ih =>
    simp only [checkLaws, bind_ok, get_ok] at h
    obtain ⟨e', he', h⟩ := h
    split at h
    · cases h
    · rename_i hs
      rcases List.mem_cons.1 hm with rfl | hm
      · rw [he] at he'
        cases he'
        exact fun hin => hs (Dict.contains_iff.2 hin)
      · exact ih h hm

theorem checkOwn_ok {names : List String} {law : String} {d : Definition}
    {e : Formula.Expression} (h : checkOwn m n fs names = .ok ()) (hm : name ∈ names)
    (hd : m.definitions.find? name = some d) (hs : n.symbols.find? name = some symbol)
    (hl : law ∈ d.laws) (he : fs.find? law = some e) : symbol ∉ e.freeSymbols.toList := by
  induction names with
  | nil => cases hm
  | cons other names ih =>
    simp only [checkOwn, bind_ok, Names.symbolOf, definitionOf, get_ok] at h
    obtain ⟨symbol', hs', d', hd', ⟨⟩, hc, h⟩ := h
    rcases List.mem_cons.1 hm with rfl | hm
    · rw [hs] at hs'
      rw [hd] at hd'
      cases hs'
      cases hd'
      exact checkLaws_ok hc hl he
    · exact ih h hm

/-- The formulas of a model do not use what they compute. -/
theorem ofModel_ok {o : Ontology} {formulas : Formula.Noted Formulas}
    (h : ofModel o m n = .ok formulas) : checkOwn m n formulas.result m.order = .ok () := by
  simp only [ofModel, bind_ok, pure_ok] at h
  obtain ⟨laws, -, fs, -, joint, -, ⟨⟩, hc, rfl⟩ := h
  exact hc

end Formulas

end Program

end Kinetics

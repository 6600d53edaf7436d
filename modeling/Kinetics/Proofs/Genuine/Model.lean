import Kinetics.Proofs.Genuine.Formula
import Kinetics.Proofs.Model.Resolve

/-!
# Kinetics.Proofs.Genuine.Model

Resolving a context fails with genuine faults only. Names of variables and laws come from the
ontology and the context, and a name that the ontology does not have is a genuine fault. The one
lookup that relies on an earlier step is that of dependencies: the search for an order follows
computed variables only, and these are listed.
-/

namespace Kinetics

variable {o : Ontology} {s : Selection} {t : Topology} {a : Activation} {e : Fault}
  {name law : String} {names : List String} {xs : List (String × Law)}

namespace Ontology

@[grind →] theorem variableOf_genuine (h : o.variableOf name = .error e) : e.Genuine := by
  unfold variableOf at h
  grind [Fault.Genuine]

@[grind →] theorem lawOf_genuine (h : o.lawOf name = .error e) : e.Genuine := by
  unfold lawOf at h
  grind [Fault.Genuine]

end Ontology

namespace Activation

@[grind →] theorem activate_genuine {l : Law} (h : a.activate o name l = .error e) :
    e.Genuine := by
  unfold activate target at h
  grind [Fault.Genuine]

@[grind →] theorem activateAll_genuine (h : a.activateAll o xs = .error e) : e.Genuine := by
  fun_induction activateAll o a xs <;> grind

@[grind →] theorem activateFlow_genuine {joint : Option String}
    (h : a.activateFlow o joint xs = .error e) : e.Genuine := by
  fun_induction activateFlow o a joint xs <;> grind [Fault.Genuine]

@[grind →] theorem activateReaction_genuine {position : Nat}
    (h : activateReaction o position a xs = .error e) : e.Genuine := by
  fun_induction activateReaction o position a xs <;> grind

@[grind →] theorem activateReactions_genuine {rs : List (Reaction × Nat)}
    (h : a.activateReactions o s rs = .error e) : e.Genuine := by
  fun_induction activateReactions o s a rs <;> grind

@[grind →] theorem associated_genuine {k : Phase} (h : associated xs k = .error e) :
    e.Genuine := by
  unfold associated at h
  grind [Fault.Genuine]

@[grind →] theorem activatePhase_genuine {k : Phase} (h : a.activatePhase o t xs k = .error e) :
    e.Genuine := by
  unfold activatePhase at h
  grind

@[grind →] theorem inputsOf_genuine (h : a.inputsOf o s names = .error e) : e.Genuine := by
  fun_induction inputsOf o a s names <;> grind

end Activation

namespace Closure

variable {v : Variable}

@[grind →] theorem reactionLawsOf_genuine {laws : NameSet} {rs : List (Nat × NameSet)}
    (h : reactionLawsOf name laws rs = .error e) : e.Genuine := by
  fun_induction reactionLawsOf name laws rs <;> grind [Fault.Genuine]

@[grind →] theorem defineByTargets_genuine {laws : NameSet}
    (h : defineByTargets a name v laws = .error e) : e.Genuine := by
  unfold defineByTargets at h
  grind [Fault.Genuine]

@[grind →] theorem definitionalOf_genuine (h : definitionalOf o names = .error e) :
    e.Genuine := by
  fun_induction definitionalOf o names <;> grind

@[grind →] theorem defineByDefault_genuine (h : defineByDefault o name v = .error e) :
    e.Genuine := by
  unfold defineByDefault at h
  grind [Fault.Genuine]

@[grind →] theorem defineByOverride_genuine (h : defineByOverride o name v law = .error e) :
    e.Genuine := by
  unfold defineByOverride at h
  grind [Fault.Genuine]

@[grind →] theorem definitionOf_genuine {integral : String}
    (h : definitionOf o s a integral name v = .error e) : e.Genuine := by
  unfold definitionOf define at h
  grind

@[grind →] theorem close_genuine {integral : String} {defs : Dict String Definition}
    {pending : List String} (h : close o s a integral defs pending = .error e) : e.Genuine := by
  fun_induction close o s a integral defs pending <;> grind

end Closure

namespace Model

open Activation

@[grind →] theorem accumulationOf_genuine (h : accumulationOf o s = .error e) : e.Genuine := by
  unfold accumulationOf at h
  grind [Fault.Genuine]

@[grind →] theorem activated_genuine {acc : Accumulation} (h : activated o s t acc = .error e) :
    e.Genuine := by
  simp only [activated, bind_error] at h
  rcases h with h | ⟨a₁, -, h | ⟨a₂, -, h | ⟨a₃, -, h | ⟨a₄, -, h | ⟨a₅, -, h | ⟨a₆, -, h |
    ⟨a₇, -, h⟩⟩⟩⟩⟩⟩⟩
  · exact activate_genuine h
  · exact activateFlow_genuine h
  · exact activateAll_genuine h
  · exact activateAll_genuine h
  · exact activateReactions_genuine h
  · exact activatePhase_genuine h
  · exact activatePhase_genuine h
  · cases h

@[grind →] theorem seedsOf_genuine (h : seedsOf o s a names = .error e) : e.Genuine := by
  fun_induction seedsOf o s a names <;> grind

@[grind →] theorem seeds_genuine {acc : Accumulation} (h : seeds o s acc a = .error e) :
    e.Genuine := by
  unfold seeds at h
  grind

@[grind →] theorem dependencies_genuine {defs : Dict String Definition}
    {ds : List (String × Definition)} (h : dependencies o s a defs ds = .error e) :
    e.Genuine := by
  fun_induction dependencies o s a defs ds <;> grind [dependenciesOf]

/-- Resolving a context looks up no dependencies that are not listed. -/
theorem resolve_genuine (h : resolve o s t = .error e) : e.Genuine := by
  simp only [resolve, bind_error] at h
  rcases h with h | ⟨acc, -, h | ⟨r, -, h | ⟨pending, -, h | ⟨defs, -, h | ⟨deps, hdeps, h |
    ⟨order, -, h⟩⟩⟩⟩⟩⟩
  · exact accumulationOf_genuine h
  · exact activated_genuine h
  · exact seeds_genuine h
  · exact Closure.close_genuine h
  · exact dependencies_genuine h
  · have hcycle := Order.ofDependencies_error (dependencies_listed hdeps) h
    rw [Fault.genuine_iff, hcycle]
    decide
  · cases h

end Model

end Kinetics

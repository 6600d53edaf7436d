import Kinetics.Formula.Optional
import Kinetics.Space.Topology

/-!
# Kinetics.Proofs.Genuine.Formula

Faults that an input can lead to. All faults but a missing entry are genuine. Checking a plant,
reading its reactions, and reading, pruning and compiling a formula look nothing up that an earlier
step should have listed, so that they fail with genuine faults only.
-/

namespace Kinetics

namespace Fault

variable {e : Fault}

/-- The fault is no missing entry. -/
def Genuine (e : Fault) : Prop :=
  ∀ name, e ≠ .unlisted name

/-- Genuine faults are those whose report has a code. -/
theorem genuine_iff : e.Genuine ↔ e.report.code ≠ .noError := by
  cases e <;> simp [Genuine, report]

end Fault

variable {e : Fault}

namespace Plant

@[grind →] theorem checkGroups_genuine {p : Plant} {family : String}
    {gs : List (String × List String)} (h : p.checkGroups family gs = .error e) : e.Genuine := by
  fun_induction checkGroups p family gs <;> grind [Fault.Genuine]

end Plant

@[grind →] theorem ModelContext.validate_genuine {c : ModelContext} (h : c.validate = .error e) :
    e.Genuine := by
  unfold validate at h
  grind [Fault.Genuine]

@[grind →] theorem Shape.ofDimensions_genuine {ds : OrderedSet Dimension}
    (h : ofDimensions ds = .error e) : e.Genuine := by
  unfold ofDimensions at h
  grind [Fault.Genuine]

namespace Reaction

variable {text : String}

@[grind →] theorem readTerms_genuine {ts : List (List Char)} (h : readTerms text ts = .error e) :
    e.Genuine := by
  fun_induction readTerms text ts <;> grind [Fault.Genuine]

@[grind →] theorem read_genuine {species : List String} (h : read species text = .error e) :
    e.Genuine := by
  unfold read readSide at h
  grind [Fault.Genuine]

end Reaction

namespace Topology

@[grind →] theorem readReactions_genuine {species texts : List String}
    (h : readReactions species texts = .error e) : e.Genuine := by
  fun_induction readReactions species texts <;> grind

theorem ofPlant_genuine {p : Plant} (h : ofPlant p = .error e) : e.Genuine := by
  unfold ofPlant at h
  grind

end Topology

namespace Formula

@[grind →] theorem OpenElement.close_genuine {f : OpenElement} (h : f.close = .error e) :
    e.Genuine := by
  unfold close container pair at h
  grind [Fault.Genuine]

namespace Builder

variable {b : Builder}

@[grind →] theorem step_genuine {event : Markup.Event} (h : b.step event = .error e) :
    e.Genuine := by
  unfold step opening closing text at h
  grind [Fault.Genuine]

@[grind →] theorem run_genuine {events : List Markup.Event} (h : b.run events = .error e) :
    e.Genuine := by
  fun_induction run b events <;> grind

@[grind →] theorem finish_genuine (h : b.finish = .error e) : e.Genuine := by
  unfold finish at h
  grind [Fault.Genuine]

end Builder

@[grind →] theorem parse_genuine {markup : String} (h : parse markup = .error e) : e.Genuine := by
  unfold parse at h
  grind [Fault.Genuine]

namespace Node

@[grind →] theorem checkArguments_genuine {keyword : Keyword} {arguments : List Node}
    (h : checkArguments keyword arguments = .error e) : e.Genuine := by
  unfold checkArguments checkArguments.count at h
  grind [Fault.Genuine]

mutual

/-- A formula without code has a call form with the wrong arguments. -/
theorem fragments_genuine {suffix : String} {e : Fault} :
    ∀ n : Node, n.fragments suffix = .error e → e.Genuine
  | .row children, h => by
    have ih := @fragmentsEach_genuine suffix e children
    unfold fragments at h
    grind
  | .fenced _ _ children, h => by
    have ih := @fragmentsEach_genuine suffix e children
    unfold fragments at h
    grind
  | .fraction a b, h => by
    have iha := @fragments_genuine suffix e a
    have ihb := @fragments_genuine suffix e b
    unfold fragments at h
    grind
  | .root children, h => by
    have ih := @fragmentsEach_genuine suffix e children
    unfold fragments at h
    grind
  | .sup a b, h => by
    have iha := @fragments_genuine suffix e a
    have ihb := @fragments_genuine suffix e b
    unfold fragments at h
    grind
  | .identifier _, h => by
    unfold fragments at h
    grind
  | .operator _, h => by
    unfold fragments at h
    grind
  | .text _, h => by
    unfold fragments at h
    grind
  | .sub _ _, h => nomatch h
  | .number _, h => nomatch h
  | .space _, h => nomatch h
  | .unknown _, h => nomatch h

theorem fragmentsEach_genuine {suffix : String} {e : Fault} :
    ∀ ns : List Node, fragmentsEach suffix ns = .error e → e.Genuine
  | [], h => nomatch h
  | n :: ns, h => by
    have ihn := @fragments_genuine suffix e n
    have ihns := @fragmentsEach_genuine suffix e ns
    unfold fragmentsEach at h
    grind

end

@[grind →] theorem compile_genuine {suffix : String} {n : Node}
    (h : n.compile suffix = .error e) : e.Genuine := by
  unfold Node.compile at h
  grind [fragments_genuine]

end Node

@[grind →] theorem compile_genuine {suffix markup : String} (h : compile suffix markup = .error e) :
    e.Genuine := by
  unfold compile at h
  grind

theorem readSymbol_genuine {symbol : String} (h : readSymbol symbol = .error e) : e.Genuine := by
  unfold readSymbol at h
  grind

namespace Node

@[grind →] theorem isKept_genuine {keep : NameSet → Bool} {content : List Node}
    (h : isKept keep content = .error e) : e.Genuine := by
  unfold isKept at h
  grind

mutual

theorem prune_genuine {keep : NameSet → Bool} {e : Fault} :
    ∀ n : Node, n.prune keep = .error e → e.Genuine
  | .row children, h => by
    have ih := @pruneTerms_genuine keep e children [] false
    unfold prune at h
    grind
  | .fenced _ _ children, h => by
    have ih := @pruneTerms_genuine keep e children [] false
    unfold prune at h
    grind
  | .fraction a b, h => by
    have iha := @prune_genuine keep e a
    have ihb := @prune_genuine keep e b
    unfold prune at h
    grind
  | .sup a b, h => by
    have iha := @prune_genuine keep e a
    have ihb := @prune_genuine keep e b
    unfold prune at h
    grind
  | .root children, h => by
    have ih := @pruneTerms_genuine keep e children [] false
    unfold prune at h
    grind
  | .sub _ _, h => nomatch h
  | .identifier _, h => nomatch h
  | .number _, h => nomatch h
  | .operator _, h => nomatch h
  | .space _, h => nomatch h
  | .text _, h => nomatch h
  | .unknown _, h => nomatch h

theorem pruneTerms_genuine {keep : NameSet → Bool} {e : Fault} :
    ∀ (ns before : List Node) (skipPlus : Bool),
      pruneTerms keep before skipPlus ns = .error e → e.Genuine
  | [], _, _, h => nomatch h
  | n :: ns, before, skipPlus, h => by
    have ihn := @prune_genuine keep e n
    have ihns := @pruneTerms_genuine keep e ns
    unfold pruneTerms at h
    grind

end

end Node

end Formula

end Kinetics

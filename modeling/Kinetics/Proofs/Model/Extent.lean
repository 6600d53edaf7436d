import Kinetics.Proofs.Model.Resolve
import Kinetics.Proofs.Model.Switching
import Kinetics.Proofs.Model.Worklist
import Mathlib.Order.Bounds.Defs

/-!
# Kinetics.Proofs.Model.Extent

Which variables a model defines. What the selection switches on says which ones it needs to begin
with; and each variable needs what the laws of its own definition read. The model defines the
least set of variables that has all of these, and it is found in finitely many turns.
-/

namespace Kinetics

namespace Model

open Activation Closure

variable {o : Ontology} {s : Selection} {t : Topology} {defs : Dict String Definition}

theorem mem_seedsOf {a : Activation} {names seeds : List String} {v : String}
    (h : seedsOf o s a names = .ok seeds) :
    v ∈ seeds ↔ ∃ name law, name ∈ names ∧ o.lawOf name = .ok law ∧
      (v ∈ (a.inputs s law).toList ∨ law.differentialVariable = some v) := by
  induction names generalizing seeds with
  | nil =>
    cases h
    simp
  | cons name names ih =>
    simp only [seedsOf] at h
    split at h
    · cases h
    · rename_i law hlaw
      split at h
      · cases h
      · rename_i rest hrest
        cases h
        rw [List.mem_append, List.mem_append, Option.mem_toList, ih hrest]
        constructor
        · rintro (hv | ⟨other, l, hm, hl, hv⟩)
          · exact ⟨name, law, List.mem_cons_self, hlaw, hv⟩
          · exact ⟨other, l, List.mem_cons_of_mem _ hm, hl, hv⟩
        · rintro ⟨other, l, hm, hl, hv⟩
          rcases List.mem_cons.1 hm with rfl | hm
          · rw [hlaw] at hl
            cases hl
            exact .inl hv
          · exact .inr ⟨other, l, hm, hl, hv⟩

/-- The variables that the closure starts from. -/
theorem mem_seeds_iff {acc : Accumulation} {a : Activation} {pending : List String} {v : String}
    (h : seeds o s acc a = .ok pending) :
    v ∈ pending ↔ (v = acc.state ∨ v = acc.integralVariable ∨ v = acc.upperLimit) ∨
      (∃ name law, name ∈ a.active.toList ∧ o.lawOf name = .ok law ∧
        (v ∈ (a.inputs s law).toList ∨ law.differentialVariable = some v)) ∨
      a.targets.contains v = true ∨
      (a.reactionLaws.isEmpty = false ∧ v = Reaction.coefficientName) := by
  simp only [seeds] at h
  split at h
  · cases h
  · rename_i laws hlaws
    cases h
    rw [List.mem_append, List.mem_append, List.mem_append, mem_seedsOf hlaws, Dict.contains_iff,
      or_assoc, or_assoc]
    cases a.reactionLaws.isEmpty <;> simp

/-- The set has every variable that a model with these definitions needs. -/
structure Complete (o : Ontology) (s : Selection) (t : Topology) (defs : Dict String Definition)
    (vs : Set String) : Prop where
  accumulation : ∀ l law v, o.laws.find? l = some law → law.phenomenon = some s.accumulation →
    law.differentialVariable = some v ∨ law.integralVariable = some v ∨ law.upperLimit = some v →
      v ∈ vs
  reads : ∀ l law v, o.SwitchesOn s t l law → o.Reads s t law v → v ∈ vs
  integrated : ∀ l law v, o.SwitchesOn s t l law → law.differentialVariable = some v → v ∈ vs
  targets : ∀ l law v, o.SwitchesOn s t l law → law.differentialVariable = none → o.Claims v l →
    v ∈ vs
  coefficients : (∃ l, o.Drives s t l) → Reaction.coefficientName ∈ vs
  own : ∀ v d l law w, v ∈ vs → defs.find? v = some d → l ∈ d.laws → o.laws.find? l = some law →
    o.Reads s t law w → w ∈ vs

section Resolved

variable {acc : Accumulation} {r : Activated} {pending : List String} {v w : String}
  (hacc : accumulationOf o s = .ok acc) (hr : activated o s t acc = .ok r)
include hacc hr

/-- What is needed to begin with is what the closure starts from. -/
theorem mem_pending (hp : seeds o s acc r.activation = .ok pending) :
    v ∈ pending ↔ (v = acc.state ∨ v = acc.integralVariable ∨ v = acc.upperLimit) ∨
      (∃ l law, o.SwitchesOn s t l law ∧ (o.Reads s t law v ∨ law.differentialVariable = some v)) ∨
      (∃ l law, o.SwitchesOn s t l law ∧ law.differentialVariable = none ∧ o.Claims v l) ∨
      ((∃ l, o.Drives s t l) ∧ v = Reaction.coefficientName) := by
  obtain ⟨hreflects, -, -⟩ := activated_reflects hacc hr
  rw [mem_seeds_iff hp, hreflects.target_iff, hreflects.drives_iff]
  simp only [← and_assoc, hreflects.active_iff, hreflects.mem_inputs, mem_switchedOn]

/-- A defined variable brings in what the laws of its definition read. -/
theorem brings_iff
    (hd : close o s r.activation acc.integralVariable Dict.empty pending = .ok defs)
    (hv : defs.contains v = true) :
    Brings o s r.activation acc.integralVariable v w ↔
      ∃ d l law, defs.find? v = some d ∧ l ∈ d.laws ∧ o.laws.find? l = some law ∧
        o.Reads s t law w := by
  obtain ⟨hreflects, -, -⟩ := activated_reflects hacc hr
  obtain ⟨hj, -⟩ := close_empty_ok hd
  obtain ⟨d, hf⟩ := Option.isSome_iff_exists.1 hv
  obtain ⟨x, hx, hdef⟩ := hj v d hf
  simp only [hf, Option.some.injEq, exists_and_left, exists_eq_left', ← hreflects.mem_inputs]
  constructor
  · rintro ⟨x', d', inputs, hx', hdef', hi, hw⟩
    rw [hx] at hx'
    cases hx'
    rw [hdef] at hdef'
    cases hdef'
    obtain ⟨l, law, hl, hlaw, hin⟩ := (mem_inputsOf hi).1 hw
    exact ⟨l, hl, law, Ontology.lawOf_ok.1 hlaw, hin⟩
  · rintro ⟨l, hl, law, hlaw, hin⟩
    obtain ⟨inputs, hi⟩ := close_inputsOf hd hf
    exact ⟨x, d, inputs, hx, hdef, hi,
      (mem_inputsOf hi).2 ⟨l, law, hl, Ontology.lawOf_ok.2 hlaw, hin⟩⟩

theorem complete_definitions (hp : seeds o s acc r.activation = .ok pending)
    (hd : close o s r.activation acc.integralVariable Dict.empty pending.reverse = .ok defs) :
    Complete o s t defs {v | defs.contains v = true} := by
  have hdefined : ∀ v ∈ pending, defs.contains v = true := fun v hv =>
    close_covers hd (.inr (List.mem_reverse.2 hv))
  have hseed {v : String} := mem_pending (v := v) hacc hr hp
  constructor
  case accumulation =>
    intro l law v hl hphenomenon hv
    obtain ⟨-, hstate, hintegral, hlimit⟩ := accumulationOf_declares hacc
    obtain ⟨rfl, rfl⟩ := (mem_accumulation hacc).1 ⟨hl, hphenomenon⟩
    refine hdefined v (hseed.2 (.inl ?_))
    simpa [hstate, hintegral, hlimit, eq_comm] using hv
  case reads =>
    intro l law v hl hv
    exact hdefined v (hseed.2 (.inr (.inl ⟨l, law, hl, .inl hv⟩)))
  case integrated =>
    intro l law v hl hv
    exact hdefined v (hseed.2 (.inr (.inl ⟨l, law, hl, .inr hv⟩)))
  case targets =>
    intro l law v hl hn hv
    exact hdefined v (hseed.2 (.inr (.inr (.inl ⟨l, law, hl, hn, hv⟩))))
  case coefficients =>
    intro h
    exact hdefined _ (hseed.2 (.inr (.inr (.inr ⟨h, rfl⟩))))
  case own =>
    intro v d l law w hv hf hl hlaw hw
    exact close_brings hd hv ((brings_iff hacc hr hd hv).2 ⟨d, l, law, hf, hl, hlaw, hw⟩)

theorem Complete.mem_of_pending {vs : Set String} (hvs : Complete o s t defs vs)
    (hp : seeds o s acc r.activation = .ok pending) (hv : v ∈ pending) : v ∈ vs := by
  obtain ⟨-, hstate, hintegral, hlimit⟩ := accumulationOf_declares hacc
  obtain ⟨hl, hphenomenon⟩ := (mem_accumulation hacc).2 ⟨rfl, rfl⟩
  have hmain := fun v => hvs.accumulation acc.name acc.law v hl hphenomenon
  rcases (mem_pending hacc hr hp).1 hv with (rfl | rfl | rfl) | ⟨l, law, hs, hv | hv⟩ |
    ⟨l, law, hs, hn, hv⟩ | ⟨hdrives, rfl⟩
  · exact hmain _ (.inl hstate)
  · exact hmain _ (.inr (.inl hintegral))
  · exact hmain _ (.inr (.inr hlimit))
  · exact hvs.reads l law v hs hv
  · exact hvs.integrated l law v hs hv
  · exact hvs.targets l law v hs hn hv
  · exact hvs.coefficients hdrives

end Resolved

/-- The activation that a model is closed over, and what its definitions are by it. -/
theorem resolve_reflects {m : Model} (h : resolve o s t = .ok m) :
    ∃ a, Reflects o a (switchedOn o s t) (reactionNotes o s t) ∧
      Justified o s a m.integralVariable m.definitions ∧
      Complete o s t m.definitions {v | m.definitions.contains v = true} := by
  obtain ⟨acc, r, pending, _, hacc, hr, hp, hd, -, -, -, hintegral, -⟩ := resolve_ok h
  exact ⟨r.activation, (activated_reflects hacc hr).1, hintegral ▸ (close_empty_ok hd).1,
    complete_definitions hacc hr hp hd⟩

/-- Whatever the worklist of a closure begins with, taking turns comes to an end; and where a
selection gives a model, the variables that the model defines are the least set that has all the
model needs. -/
theorem definitions_least (o : Ontology) (s : Selection) (t : Topology) :
    (∀ a integral w, ∃ n, Worklist.run o s a integral n w =
      some (close o s a integral w.defs w.pending)) ∧
    ∀ m, resolve o s t = .ok m →
      IsLeast {vs | Complete o s t m.definitions vs} {v | m.definitions.contains v = true} := by
  refine ⟨fun a integral w => Worklist.run_close w, fun m h => ?_⟩
  obtain ⟨acc, r, pending, deps, hacc, hr, hp, hd, -⟩ := resolve_ok h
  have hcomplete := complete_definitions hacc hr hp hd
  refine ⟨hcomplete, fun vs hvs v hv => ?_⟩
  -- on the way from what is pending, each variable is defined and in the set
  obtain ⟨root, hroot, hpath⟩ := (contains_close hd).1 hv
  have hin : m.definitions.contains v = true ∧ v ∈ vs := by
    clear hv
    induction hpath with
    | refl =>
      exact ⟨close_covers hd (.inr hroot),
        hvs.mem_of_pending hacc hr hp (List.mem_reverse.1 hroot)⟩
    | tail _ hb ih =>
      obtain ⟨d, l, law, hf, hl, hlaw, hreads⟩ := (brings_iff hacc hr hd ih.1).1 hb
      exact ⟨close_brings hd ih.1 hb, hvs.own _ d l law _ ih.2 hf hl hlaw hreads⟩
  exact hin.2

section Decay

/-- A decay with the rate `r`, whose constant `k` is computed from `A`. Nothing reads `u`, and `p` and
`q` are computed from each other. -/
def decay : Ontology where
  quantities := Dict.ofList
    [("A", ⟨.constant, "A", none, Dict.empty, Dict.empty, none⟩),
      ("C", ⟨.stateVariable, "C", none, Dict.empty, Dict.empty, none⟩),
      ("Stoichiometric_Coefficient", ⟨.modelParameter, "nu", none, Dict.empty, Dict.empty, none⟩),
      ("k", ⟨.modelParameter, "k", none, Dict.empty, OrderedSet.ofList ["Arrhenius"], none⟩),
      ("p", ⟨.quantity, "p", none, Dict.empty, OrderedSet.ofList ["Forth"], none⟩),
      ("q", ⟨.quantity, "q", none, Dict.empty, OrderedSet.ofList ["Back"], none⟩),
      ("r", ⟨.quantity, "r", none, Dict.empty, OrderedSet.ofList ["Mass_Action"], none⟩),
      ("t", ⟨.independentVariable, "t", none, Dict.empty, Dict.empty, none⟩),
      ("tf", ⟨.operationParameter, "tf", none, Dict.empty, Dict.empty, none⟩),
      ("u", ⟨.modelParameter, "u", none, Dict.empty, Dict.empty, none⟩)]
  laws := Dict.ofList
    [("Arrhenius", ⟨"<mi>A</mi>", none, OrderedSet.ofList ["A"], Dict.empty, none, none, none, none,
        none, none⟩),
      ("Back", ⟨"<mi>p</mi>", none, OrderedSet.ofList ["p"], Dict.empty, none, none, none, none,
        none, none⟩),
      ("Balance", ⟨"<mi>r</mi>", some "Batch", OrderedSet.ofList ["r"], OrderedSet.ofList ["u"], none,
        none, some "t", some "tf", some "C", none⟩),
      ("Forth", ⟨"<mi>q</mi>", none, OrderedSet.ofList ["q"], Dict.empty, none, none, none, none,
        none, none⟩),
      ("Mass_Action", ⟨"<mi>k</mi><mi>C</mi>", some "MA", OrderedSet.ofList ["C", "k"], Dict.empty,
        none, none, none, none, none, none⟩)]
  units := Dict.empty

def decaySelection : Selection :=
  { Selection.empty with
    accumulation := "Batch"
    reactionPhenomena := Dict.ofList [("A > B", ["MA"])] }

def decayTopology : Topology :=
  ⟨["A", "B"], [⟨"A > B", [("A", Coefficient.one.neg), ("B", .one)]⟩], [], [], []⟩

theorem resolve_decay : ∃ m, resolve decay decaySelection decayTopology = .ok m ∧
    m.definitions.keys = ["A", "C", "Stoichiometric_Coefficient", "k", "r", "t", "tf"] := by
  refine exists_ok_of_map (f := fun m : Model => m.definitions.keys) ?_
  decide +kernel

/-- The decay needs all but `p`, `q` and `u`; and closing over `p` ends, with `q` defined, too. -/
theorem definitions_least_decay :
    (∃ m, resolve decay decaySelection decayTopology = .ok m ∧
      m.definitions.keys = ["A", "C", "Stoichiometric_Coefficient", "k", "r", "t", "tf"] ∧
      IsLeast {vs | Complete decay decaySelection decayTopology m.definitions vs}
        {v | m.definitions.contains v = true}) ∧
    ∃ n defs, Worklist.run decay decaySelection .initial "t" n ⟨Dict.empty, ["p"]⟩ =
      some (.ok defs) ∧ defs.keys = ["p", "q"] := by
  have hleast := definitions_least decay decaySelection decayTopology
  constructor
  · obtain ⟨m, hm, hkeys⟩ := resolve_decay
    exact ⟨m, hm, hkeys, hleast.2 m hm⟩
  · obtain ⟨n, hn⟩ := hleast.1 .initial "t" ⟨Dict.empty, ["p"]⟩
    obtain ⟨defs, hdefs, hkeys⟩ : ∃ defs, close decay decaySelection .initial "t" Dict.empty ["p"] =
        .ok defs ∧ defs.keys = ["p", "q"] := exists_ok_of_map (f := Dict.keys) (by decide +kernel)
    rw [hdefs] at hn
    exact ⟨n, defs, hn, hkeys⟩

end Decay

end Model

end Kinetics

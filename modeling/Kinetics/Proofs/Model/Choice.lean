import Kinetics.Proofs.Model.States

/-!
# Kinetics.Proofs.Model.Choice

Which of its active laws defines a variable. Laws that are selected for reactions are chosen
reaction by reaction. The choice keeps every active law: one law for a reaction at most, and no law
that is left over; so a variable has a law for each reaction, or a single law altogether.
-/

namespace Kinetics

namespace Ontology

/-- The law is switched on, integrates nothing, and is claimed by the variable. -/
def Offers (o : Ontology) (s : Selection) (t : Topology) (v l : String) : Prop :=
  ∃ law, o.SwitchesOn s t l law ∧ law.differentialVariable = none ∧ o.Claims v l

/-- The phenomenon of the law is selected for the text of the reaction at a position. -/
def SelectedAt (o : Ontology) (s : Selection) (t : Topology) (r : Nat) (l : String) : Prop :=
  ∃ reaction ps law p, t.reactions[r]? = some reaction ∧
    s.reactionPhenomena.find? reaction.text = some ps ∧ o.laws.find? l = some law ∧
    law.phenomenon = some p ∧ p ∈ ps

end Ontology

/-- Shapes over reactions are those of variables that have the dimension. -/
theorem Shape.overReactions_ofDimensions {ds : OrderedSet Dimension} {shape : Shape}
    (h : Shape.ofDimensions ds = .ok shape) :
    shape.overReactions = true ↔ Dict.contains ds .reaction = true := by
  simp only [Shape.ofDimensions] at h
  split at h <;> cases h <;> simp [Shape.overReactions, Shape.axes, *]

namespace Closure

variable {a : Activation} {name l : String} {v : Variable} {d : Definition} {laws : NameSet}
  {rs : List (Nat × NameSet)} {chosen : List (Nat × String)} {r : Nat}

theorem mem_common {active : NameSet} :
    l ∈ active.common laws ↔ l ∈ active.toList ∧ l ∈ laws.toList := by
  rw [OrderedSet.common, List.mem_filter, Dict.contains_iff]
  rfl

/-- What is chosen for a reaction is the one of its laws that targets the variable. -/
theorem mem_reactionLawsOf_iff (h : reactionLawsOf name laws rs = .ok chosen) :
    (r, l) ∈ chosen ↔ ∃ active, (r, active) ∈ rs ∧ l ∈ active.common laws := by
  induction rs generalizing chosen with
  | nil =>
    cases h
    simp
  | cons e rs ih =>
    obtain ⟨position, active⟩ := e
    simp only [reactionLawsOf] at h
    split at h
    · rename_i hc
      rw [ih h]
      simp [or_and_right, exists_or, hc]
    · rename_i law hc
      split at h
      · cases h
      · rename_i rest hrest
        cases h
        rw [List.mem_cons, ih hrest]
        simp [or_and_right, exists_or, hc, and_assoc]
    · cases h

theorem reactionLawsOf_sublist (h : reactionLawsOf name laws rs = .ok chosen) :
    (chosen.map Prod.fst).Sublist (rs.map Prod.fst) := by
  induction rs generalizing chosen with
  | nil =>
    cases h
    exact List.Sublist.refl _
  | cons e rs ih =>
    obtain ⟨position, active⟩ := e
    simp only [reactionLawsOf] at h
    split at h
    · exact (ih h).cons _
    · split at h
      · cases h
      · rename_i rest hrest
        cases h
        exact (ih hrest).cons_cons _
    · cases h

/-- The choice by position of the reaction. -/
theorem find?_chosen (h : reactionLawsOf name laws a.reactionLaws.entries = .ok chosen) :
    (Dict.ofList chosen).find? r = some l ↔ Activation.Names a.reactionLaws r l ∧ l ∈ laws.toList := by
  have hascending : Ascending chosen := by
    have hkeys : (a.reactionLaws.entries.map Prod.fst).Pairwise fun i j => compare i j = .lt :=
      List.pairwise_map.2 a.reactionLaws.ascending
    exact List.pairwise_map.1 (hkeys.sublist (reactionLawsOf_sublist h))
  rw [Dict.find?_eq_some_iff, Dict.entries_ofList hascending, mem_reactionLawsOf_iff h]
  simp only [mem_common, Activation.Names, Dict.find?_eq_some_iff]
  constructor
  · rintro ⟨active, hr, hl, hin⟩
    exact ⟨⟨active, hr, hl⟩, hin⟩
  · rintro ⟨⟨active, hr, hl⟩, hin⟩
    exact ⟨active, hr, hl, hin⟩

/-- A variable is defined by the only law that targets it, or by a law for each reaction such that
none is left over. -/
theorem defineByTargets_cases (h : defineByTargets a name v laws = .ok d) :
    (∃ law, d = .derived law ∧ ∀ l, l ∈ laws.toList ↔ l = law) ∨
    ∃ choice : Dict Nat String, d = .perReaction choice ∧ Dict.contains v.dimensions .reaction = true ∧
      (∀ r l, choice.find? r = some l ↔ Activation.Names a.reactionLaws r l ∧ l ∈ laws.toList) ∧
      ∀ l ∈ laws.toList, ∃ r, choice.find? r = some l := by
  simp only [defineByTargets] at h
  split at h
  · cases h
  · rename_i chosen hchosen
    -- a law that is not left over is chosen for some reaction
    have hnone : laws.toList.filter (fun l => !chosen.any fun c => c.2 == l) = [] →
        ∀ l ∈ laws.toList, l ∈ chosen.map Prod.snd := by
      intro hothers l hl
      have := List.filter_eq_nil_iff.1 hothers l hl
      simpa using this
    split at h
    · rename_i law hothers
      cases h
      refine .inl ⟨law, rfl, fun l => ?_⟩
      simp only [List.any_nil, Bool.not_false, List.filter_true] at hothers
      rw [hothers, List.mem_singleton]
    · rename_i c cs hothers
      split at h
      · cases h
      · rename_i shape hshape
        split at h
        · rename_i hover
          cases h
          refine .inr ⟨_, rfl, (Shape.overReactions_ofDimensions hshape).1 hover,
            fun r l => find?_chosen hchosen, fun l hl => ?_⟩
          obtain ⟨⟨r, _⟩, hr, rfl⟩ := List.mem_map.1 (hnone hothers l hl)
          obtain ⟨active, hactive, hm⟩ := (mem_reactionLawsOf_iff hchosen).1 hr
          exact ⟨r, (find?_chosen hchosen).2
            ⟨⟨active, Dict.find?_eq_some_iff.2 hactive, (mem_common.1 hm).1⟩, hl⟩⟩
        · split at h
          · rename_i law hlaw
            cases h
            have hmem : ∀ l, l ∈ (c :: cs).map Prod.snd ↔ l = law := by
              intro l
              rw [← OrderedSet.mem_toList_ofList, hlaw, List.mem_singleton]
            refine .inl ⟨law, rfl, fun l => ⟨fun hl => (hmem l).1 (hnone hothers l hl), ?_⟩⟩
            rintro rfl
            exact mem_reactionLawsOf hchosen ((hmem l).2 rfl)
          · cases h
    · cases h

end Closure

namespace Model

open Activation Closure

variable {o : Ontology} {s : Selection} {t : Topology} {m : Model} {v l : String} {r : Nat}

/-- The variable is neither a state nor constant, nor what is integrated over, and no override
defines it. -/
structure Open (o : Ontology) (s : Selection) (m : Model) (v : String) : Prop where
  state : ∀ l, m.definitions.find? v ≠ some (.state l)
  constant : ∀ x, o.variableOf v = .ok x → x.role ≠ .constant
  independent : v ≠ m.integralVariable
  override : s.overrides.find? v = none

theorem mem_reactionNotes : (r, l) ∈ reactionNotes o s t ↔ o.SelectedAt s t r l := by
  simp only [reactionNotes, List.mem_flatMap, List.mem_map, Prod.mk.injEq, Prod.exists,
    List.mem_zipIdx_iff_getElem?, mem_selectedFor, Ontology.SelectedAt]
  constructor
  · rintro ⟨reaction, _, hr, _, law, ⟨hl, p, hp, ps, hs, hin⟩, rfl, rfl⟩
    exact ⟨reaction, ps, law, p, hr, hs, hl, hp, hin⟩
  · rintro ⟨reaction, ps, law, p, hr, hs, hl, hp, hin⟩
    exact ⟨reaction, r, hr, l, law, ⟨hl, p, hp, ps, hs, hin⟩, rfl, rfl⟩

theorem names_targets {a : Activation} {notes : List (Nat × String)}
    (h : Reflects o a (switchedOn o s t) notes) : Names a.targets v l ↔ o.Offers s t v l := by
  rw [h.targeting v l]
  constructor
  · rintro ⟨law, hm, hd, hc⟩
    exact ⟨law, mem_switchedOn.1 hm, hd, mem_claimants.1 (hc ▸ List.mem_singleton_self v)⟩
  · rintro ⟨law, hs, hd, hc⟩
    have hm := mem_switchedOn.2 hs
    refine ⟨law, hm, hd, ?_⟩
    rw [← mem_claimants] at hc
    rcases h.targeted _ hm hd with ⟨w, hw⟩ | ⟨hw, -⟩
    · rw [hw, List.mem_singleton] at hc
      rw [hw, hc]
    · rw [hw] at hc
      cases hc

/-- An open variable that has offers is defined by what targets it. -/
theorem definitionOf_open {a : Activation} {x : Variable} {d : Definition} {laws : NameSet}
    (hopen : Open o s m v) (hx : o.variableOf v = .ok x)
    (hstate : a.stateLaws.find? v = none) (hlaws : a.targets.find? v = some laws)
    (hd : definitionOf o s a m.integralVariable v x = .ok d) :
    defineByTargets a v x laws = .ok d := by
  rw [definitionOf, if_neg hopen.independent, define, hstate] at hd
  simpa only [if_neg (hopen.constant x hx), hopen.override, hlaws] using hd

/-- An open variable with offers has the only one as its law, or a law for each reaction that one of
the offers is selected for, with no offer left over. -/
theorem choice_of_open (h : resolve o s t = .ok m) (hopen : Open o s m v)
    (hoffers : o.Offers s t v l) :
    (∃ law, m.definitions.find? v = some (.derived law) ∧ ∀ l, o.Offers s t v l ↔ l = law) ∨
    ∃ choice x, m.definitions.find? v = some (.perReaction choice) ∧ o.variableOf v = .ok x ∧
      Dict.contains x.dimensions .reaction = true ∧
      (∀ r l, choice.find? r = some l ↔ o.Offers s t v l ∧ o.SelectedAt s t r l) ∧
      ∀ l, o.Offers s t v l → ∃ r, choice.find? r = some l := by
  obtain ⟨a, hreflects, hjust, hcomplete⟩ := resolve_reflects h
  obtain ⟨laws, hlaws, -⟩ := (names_targets hreflects).2 hoffers
  obtain ⟨law, hs, hd, hc⟩ := hoffers
  obtain ⟨d, hfind⟩ := Option.isSome_iff_exists.1 (hcomplete.targets l law v hs hd hc)
  obtain ⟨x, hx, hdef⟩ := hjust v d hfind
  have hstate : a.stateLaws.find? v = none := by
    cases hstate : a.stateLaws.find? v with
    | none => rfl
    | some l' =>
      rw [definitionOf_state.2 ⟨hopen.independent, hstate⟩] at hdef
      cases hdef
      exact absurd hfind (hopen.state l')
  have hmem : ∀ l, l ∈ laws.toList ↔ o.Offers s t v l := by
    intro l
    rw [← names_targets hreflects, Names, hlaws]
    simp
  have hselected : ∀ r l, Names a.reactionLaws r l ↔ o.SelectedAt s t r l := fun r l =>
    (hreflects.noted r l).trans mem_reactionNotes
  simp only [← hmem]
  rcases defineByTargets_cases (definitionOf_open hopen hx hstate hlaws hdef) with
    ⟨law, rfl, hone⟩ | ⟨choice, rfl, haxis, hchoice, hall⟩
  · exact .inl ⟨law, hfind, hone⟩
  · refine .inr ⟨choice, x, hfind, hx, haxis, fun r l => ?_, hall⟩
    rw [hchoice, hselected, and_comm]

/-- The variable is open whatever the model: no law that is switched on integrates it, and it is not
what the accumulation law integrates over. -/
structure Free (o : Ontology) (s : Selection) (t : Topology) (v : String) : Prop where
  state : ∀ l, ¬Integrates o s t l v
  constant : ∀ x, o.variableOf v = .ok x → x.role ≠ .constant
  independent : ∀ l law, o.laws.find? l = some law → law.phenomenon = some s.accumulation →
    law.integralVariable ≠ some v
  override : s.overrides.find? v = none

theorem Free.open (hfree : Free o s t v) (h : resolve o s t = .ok m) : Open o s m v where
  state l hd := hfree.state l (integrates_of_state h hd)
  constant := hfree.constant
  independent he := by
    obtain ⟨l, law, hl, hp, hi⟩ := (integralVariable_iff h).1 he
    exact hfree.independent l law hl hp hi
  override := hfree.override

/-- The offers of a variable that are at odds: two for one reaction, one that is selected for a
reaction and one that is selected for none, two that are selected for none, or two for a variable
that is not over reactions. -/
inductive Conflict (o : Ontology) (s : Selection) (t : Topology) (v : String) : Prop where
  | reaction {r : Nat} {l l' : String} : l ≠ l' → o.Offers s t v l → o.Offers s t v l' →
      o.SelectedAt s t r l → o.SelectedAt s t r l' → Conflict o s t v
  | mixed {r : Nat} {l l' : String} : o.Offers s t v l → o.Offers s t v l' →
      o.SelectedAt s t r l → (∀ r, ¬o.SelectedAt s t r l') → Conflict o s t v
  | whole {l l' : String} : l ≠ l' → o.Offers s t v l → o.Offers s t v l' →
      (∀ r, ¬o.SelectedAt s t r l) → (∀ r, ¬o.SelectedAt s t r l') → Conflict o s t v
  | axis {x : Variable} {l l' : String} : o.variableOf v = .ok x →
      Dict.contains x.dimensions .reaction = false → l ≠ l' → o.Offers s t v l →
      o.Offers s t v l' → Conflict o s t v

/-- Offers at odds are settled neither by one law nor by a law for each reaction. -/
theorem Conflict.unresolved (hc : Conflict o s t v) (hfree : Free o s t v) :
    ∃ e, resolve o s t = .error e := by
  cases h : resolve o s t with
  | error e => exact ⟨e, rfl⟩
  | ok m =>
    exfalso
    have hchoice {l : String} := choice_of_open (l := l) h (hfree.open h)
    cases hc with
    | reaction hne hl hl' hr hr' =>
      rcases hchoice hl with ⟨law, -, hone⟩ | ⟨choice, x, -, -, -, hiff, -⟩
      · exact hne (((hone _).1 hl).trans ((hone _).1 hl').symm)
      · have he := ((hiff _ _).2 ⟨hl, hr⟩).symm.trans ((hiff _ _).2 ⟨hl', hr'⟩)
        exact hne (Option.some.inj he)
    | mixed hl hl' hr hnone =>
      rcases hchoice hl with ⟨law, -, hone⟩ | ⟨choice, x, -, -, -, hiff, hall⟩
      · rw [((hone _).1 hl).trans ((hone _).1 hl').symm] at hr
        exact hnone _ hr
      · obtain ⟨r', hr'⟩ := hall _ hl'
        exact hnone r' ((hiff _ _).1 hr').2
    | whole hne hl hl' hnone =>
      rcases hchoice hl with ⟨law, -, hone⟩ | ⟨choice, x, -, -, -, hiff, hall⟩
      · exact hne (((hone _).1 hl).trans ((hone _).1 hl').symm)
      · obtain ⟨r', hr'⟩ := hall _ hl
        exact hnone r' ((hiff _ _).1 hr').2
    | axis hx hno hne hl hl' =>
      rcases hchoice hl with ⟨law, -, hone⟩ | ⟨choice, x', -, hx', haxis, -⟩
      · exact hne (((hone _).1 hl).trans ((hone _).1 hl').symm)
      · cases hx.symm.trans hx'
        rw [hno] at haxis
        cases haxis

/-- In a model, a variable that nothing else defines has the only law that is on offer, or it is
over reactions and has for each reaction just the law on offer that is selected for it, and then
every law on offer is one of these. Where the offers of a variable are at odds there is no model. -/
theorem choice_unambiguous (o : Ontology) (s : Selection) (t : Topology) (v : String) :
    (∀ m, resolve o s t = .ok m → Open o s m v → (∃ l, o.Offers s t v l) →
      (∃ law, m.definitions.find? v = some (.derived law) ∧ ∀ l, o.Offers s t v l ↔ l = law) ∨
      ∃ choice x, m.definitions.find? v = some (.perReaction choice) ∧ o.variableOf v = .ok x ∧
        Dict.contains x.dimensions .reaction = true ∧
        (∀ r l, choice.find? r = some l ↔ o.Offers s t v l ∧ o.SelectedAt s t r l) ∧
        ∀ l, o.Offers s t v l → ∃ r, choice.find? r = some l) ∧
    (Free o s t v → Conflict o s t v → ∃ e, resolve o s t = .error e) := by
  refine ⟨?_, fun hfree hc => hc.unresolved hfree⟩
  rintro m h hopen ⟨l, hl⟩
  exact choice_of_open h hopen hl

section Rates

def rateLaws : Dict String Law :=
  Dict.ofList
    [("Balance", ⟨"<mi>r</mi>", some "Batch", OrderedSet.ofList ["r"], Dict.empty, none, none,
        some "t", some "tf", some "C", none⟩),
      ("Langmuir", ⟨"<mn>2</mn><mi>k</mi>", some "LH", OrderedSet.ofList ["k"], Dict.empty, none,
        none, none, none, none, none⟩),
      ("Mass_Action", ⟨"<mi>k</mi>", some "MA", OrderedSet.ofList ["k"], Dict.empty, none, none,
        none, none, none, none⟩)]

/-- A rate with these dimensions, whose laws are selected for reactions. -/
def rate (ds : OrderedSet Dimension) : Variable :=
  ⟨.quantity, "r", none, ds, OrderedSet.ofList ["Langmuir", "Mass_Action"], none⟩

/-- A balance of the rate. -/
def rates (ds : OrderedSet Dimension) : Ontology where
  quantities := Dict.insert (Dict.ofList
    [("C", ⟨.stateVariable, "C", none, Dict.empty, Dict.empty, none⟩),
      ("Stoichiometric_Coefficient", ⟨.modelParameter, "nu", none, Dict.empty, Dict.empty, none⟩),
      ("k", ⟨.modelParameter, "k", none, Dict.empty, Dict.empty, none⟩),
      ("t", ⟨.independentVariable, "t", none, Dict.empty, Dict.empty, none⟩),
      ("tf", ⟨.operationParameter, "tf", none, Dict.empty, Dict.empty, none⟩)]) "r" (rate ds)
  laws := rateLaws
  units := Dict.empty

def ratesSelection : Selection :=
  { Selection.empty with
    accumulation := "Batch"
    reactionPhenomena := Dict.ofList [("A > B", ["MA"]), ("B > A", ["LH"])] }

/-- A reaction, its reverse, and the reaction once more. -/
def ratesTopology : Topology :=
  let forth : Reaction := ⟨"A > B", [("A", Coefficient.one.neg), ("B", .one)]⟩
  let back : Reaction := ⟨"B > A", [("A", .one), ("B", Coefficient.one.neg)]⟩
  ⟨["A", "B"], [forth, back, forth], [], [], []⟩

theorem find?_rate (ds : OrderedSet Dimension) :
    (rates ds).quantities.find? "r" = some (rate ds) :=
  Dict.find?_insert_self _ _ _

theorem free_rates (ds : OrderedSet Dimension) :
    Free (rates ds) ratesSelection ratesTopology "r" where
  state := by
    rintro l ⟨law, ⟨hl, -⟩, hd⟩
    have hall : ∀ e ∈ rateLaws.entries, e.2.differentialVariable ≠ some "r" := by decide
    exact hall _ (Dict.find?_eq_some_iff.1 hl) hd
  constant := by
    intro x hx
    cases (find?_rate ds).symm.trans (Ontology.variableOf_ok.1 hx)
    exact fun h => by cases h
  independent := by
    intro l law hl _
    have hall : ∀ e ∈ rateLaws.entries, e.2.integralVariable ≠ some "r" := by decide
    exact hall _ (Dict.find?_eq_some_iff.1 hl)
  override := rfl

theorem offers_rates (ds : OrderedSet Dimension) :
    (rates ds).Offers ratesSelection ratesTopology "r" "Mass_Action" ∧
      (rates ds).Offers ratesSelection ratesTopology "r" "Langmuir" := by
  have hclaims : ∀ l ∈ ["Mass_Action", "Langmuir"], (rates ds).Claims "r" l := by
    intro l hl
    refine ⟨rate ds, find?_rate ds, ?_⟩
    change Dict.contains (OrderedSet.ofList ["Langmuir", "Mass_Action"] : NameSet) l = true
    revert l
    decide
  have hforth : ratesSelection.Includes ratesTopology "MA" :=
    .inr (.inr (.inr (.inr ⟨_, List.mem_cons_self, ["MA"], rfl, by decide⟩)))
  have hback : ratesSelection.Includes ratesTopology "LH" :=
    .inr (.inr (.inr (.inr ⟨_, List.mem_cons_of_mem _ List.mem_cons_self, ["LH"], rfl, by decide⟩)))
  exact ⟨⟨_, ⟨rfl, .inl ⟨"MA", rfl, hforth⟩⟩, rfl, hclaims _ (by decide)⟩,
    ⟨_, ⟨rfl, .inl ⟨"LH", rfl, hback⟩⟩, rfl, hclaims _ (by decide)⟩⟩

/-- Over reactions the rate has a law for each of them; otherwise its laws are at odds. -/
theorem choice_unambiguous_rates :
    (∃ m choice, resolve (rates (OrderedSet.ofList [.reaction])) ratesSelection ratesTopology = .ok m ∧
      m.definitions.find? "r" = some (.perReaction choice) ∧
      choice.find? 0 = some "Mass_Action" ∧ choice.find? 1 = some "Langmuir" ∧
      choice.find? 2 = some "Mass_Action") ∧
    ∃ e, resolve (rates Dict.empty) ratesSelection ratesTopology = .error e := by
  have hne : "Langmuir" ≠ "Mass_Action" := by decide
  constructor
  · obtain ⟨m, hm⟩ := exists_ok (x := resolve (rates (OrderedSet.ofList [.reaction])) ratesSelection
      ratesTopology) (by decide +kernel)
    obtain ⟨hchoice, -⟩ := choice_unambiguous (rates (OrderedSet.ofList [.reaction])) ratesSelection
      ratesTopology "r"
    obtain ⟨haction, hlangmuir⟩ := offers_rates (OrderedSet.ofList [.reaction])
    rcases hchoice m hm ((free_rates _).open hm) ⟨_, haction⟩ with
      ⟨law, -, hone⟩ | ⟨choice, -, hd, -, -, hiff, -⟩
    · exact absurd (((hone _).1 hlangmuir).trans ((hone _).1 haction).symm) hne
    · exact ⟨m, choice, hm, hd,
        (hiff 0 _).2 ⟨haction, _, _, _, _, rfl, rfl, rfl, rfl, by decide⟩,
        (hiff 1 _).2 ⟨hlangmuir, _, _, _, _, rfl, rfl, rfl, rfl, by decide⟩,
        (hiff 2 _).2 ⟨haction, _, _, _, _, rfl, rfl, rfl, rfl, by decide⟩⟩
  · obtain ⟨-, hconflict⟩ := choice_unambiguous (rates Dict.empty) ratesSelection ratesTopology "r"
    obtain ⟨haction, hlangmuir⟩ := offers_rates Dict.empty
    exact hconflict (free_rates _) (.axis rfl rfl hne hlangmuir haction)

end Rates

end Model

end Kinetics

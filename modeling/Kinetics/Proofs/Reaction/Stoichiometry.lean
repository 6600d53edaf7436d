import Kinetics.Space.Point

/-!
# Kinetics.Proofs.Reaction.Stoichiometry

The coefficients of a plant's reactions stand under the indices of the points over reactions and
species: reactions involve declared species only, and each of these has a position.
-/

namespace Kinetics

/-- What is read is the text with the participants of some signed list. -/
theorem Reaction.read_ok {species : List String} {text : String} {r : Reaction}
    (h : Reaction.read species text = .ok r) :
    ∃ signed, r = ⟨text, participantsOf species signed⟩ := by
  simp only [Reaction.read] at h
  split at h
  · split at h
    · cases h
    · split at h
      · cases h
      · split at h
        · cases h
        · split at h
          · cases h
          · cases h
            exact ⟨_, rfl⟩
  · cases h

theorem Reaction.read_declared {species : List String} {text : String} {r : Reaction}
    (h : Reaction.read species text = .ok r) : ∀ p ∈ r.participants, p.1 ∈ species := by
  obtain ⟨signed, rfl⟩ := Reaction.read_ok h
  intro p hp
  simp only [participantsOf, List.mem_filterMap, Option.map_eq_some_iff, List.mem_eraseDups] at hp
  obtain ⟨s, hs, c, -, rfl⟩ := hp
  exact hs

theorem Reaction.name_of_mem_stoichiometry {rs : List Reaction} {k : ParameterIndex}
    (h : k ∈ (Reaction.stoichiometry rs).map Prod.fst) : k.name = Reaction.coefficientName := by
  obtain ⟨e, he, rfl⟩ := List.mem_map.1 h
  obtain ⟨r, -, he⟩ := List.mem_flatMap.1 he
  obtain ⟨p, -, rfl⟩ := List.mem_map.1 he
  rfl

namespace Topology

variable {t : Topology} {k : ParameterIndex}

theorem readReactions_declared {species texts : List String} {rs : List Reaction}
    (h : readReactions species texts = .ok rs) :
    ∀ r ∈ rs, ∀ p ∈ r.participants, p.1 ∈ species := by
  induction texts generalizing rs with
  | nil =>
    cases h
    intro r hr
    cases hr
  | cons text texts ih =>
    simp only [readReactions] at h
    split at h
    · cases h
    · rename_i r hr
      split at h
      · cases h
      · rename_i rest hrest
        cases h
        intro r' hr'
        rcases List.mem_cons.1 hr' with rfl | hr'
        · exact Reaction.read_declared hr
        · exact ih hrest r' hr'

/-- The reactions of a plant involve declared species only. -/
theorem ofPlant_declared {p : Plant} (h : ofPlant p = .ok t) :
    ∀ r ∈ t.reactions, ∀ p ∈ r.participants, p.1 ∈ t.species := by
  simp only [ofPlant] at h
  split at h
  · cases h
  · rename_i rs hrs
    cases h
    exact readReactions_declared hrs

def indicesOver (t : Topology) (name : String) (s : Shape) : List ParameterIndex :=
  (t.points s).map (t.indexAt name)

theorem mem_stoichiometry (h : ∀ r ∈ t.reactions, ∀ p ∈ r.participants, p.1 ∈ t.species) :
    k ∈ (Reaction.stoichiometry t.reactions).map Prod.fst ↔
      k ∈ t.indicesOver Reaction.coefficientName .reactionSpecies := by
  simp only [Reaction.stoichiometry, indicesOver, points, List.mem_map, List.mem_flatMap,
    Prod.exists, List.mem_zipIdx_iff_getElem?]
  constructor
  · rintro ⟨_, _, ⟨r, hr, name, c, hp, he⟩, rfl⟩
    cases he
    obtain ⟨i, hi⟩ := List.getElem?_of_mem hr
    obtain ⟨j, hj⟩ := Option.isSome_iff_exists.1 (List.isSome_idxOf?.2 (h r hr _ hp))
    obtain ⟨hlt, hname, -⟩ := List.idxOf?_eq_some_iff.1 hj
    refine ⟨_, ⟨r, i, hi, j, List.mem_filterMap.2 ⟨_, hp, hj⟩, rfl⟩, ?_⟩
    simp [indexAt, Reaction.indexOf, hi, List.getElem?_eq_getElem hlt, hname]
  · rintro ⟨_, ⟨r, i, hi, j, hj, rfl⟩, rfl⟩
    obtain ⟨⟨name, c⟩, hp, hj⟩ := List.mem_filterMap.1 hj
    obtain ⟨hlt, hname, -⟩ := List.idxOf?_eq_some_iff.1 hj
    refine ⟨r.indexOf name, c, ⟨r, List.mem_of_getElem? hi, name, c, hp, rfl⟩, ?_⟩
    simp [indexAt, Reaction.indexOf, hi, List.getElem?_eq_getElem hlt, hname]

end Topology

end Kinetics

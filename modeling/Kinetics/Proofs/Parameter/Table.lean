import Kinetics.Parameter.Table
import Kinetics.Proofs.Dict
import Kinetics.Proofs.Reaction.Stoichiometry

/-!
# Kinetics.Proofs.Parameter.Table

The indices of a parameter table. Inputs and states have one for every point of their shape, and
coefficients one for every participant of a reaction; neither known values nor the conversion to
standard units adds one or takes one away.
-/

namespace Kinetics

namespace ParameterTable

variable {o : Ontology} {t : Topology} {es out : TableEntries} {k : ParameterIndex}

/-- The index belongs to a variable that has entries for the points of its shape. -/
def Tables (o : Ontology) (t : Topology) (ds : List (String × Definition)) (k : ParameterIndex) :
    Prop :=
  ∃ name d v shape, (name, d) ∈ ds ∧ d.isTabled = true ∧ name ≠ Reaction.coefficientName ∧
    o.variableOf name = .ok v ∧ Shape.ofDimensions v.dimensions = .ok shape ∧
    k ∈ t.indicesOver name shape

theorem mem_addPoints {name : String} {value : Option (ParameterValue Float)} {ps : List Point} :
    k ∈ (addPoints t name value es ps).keys ↔ k ∈ es.keys ∨ k ∈ ps.map (t.indexAt name) :=
  Dict.mem_keys_insertAll (t.indexAt name) (fun _ => value) ps

theorem tables_cons {name : String} {d : Definition} {ds : List (String × Definition)} :
    Tables o t ((name, d) :: ds) k ↔ Tables o t ds k ∨
      (d.isTabled = true ∧ name ≠ Reaction.coefficientName ∧ ∃ v shape,
        o.variableOf name = .ok v ∧ Shape.ofDimensions v.dimensions = .ok shape ∧
        k ∈ t.indicesOver name shape) := by
  constructor
  · rintro ⟨n, d', v, shape, hm, ht, hn, hv, hs, hk⟩
    rcases List.mem_cons.1 hm with he | hm
    · cases he
      exact .inr ⟨ht, hn, v, shape, hv, hs, hk⟩
    · exact .inl ⟨n, d', v, shape, hm, ht, hn, hv, hs, hk⟩
  · rintro (⟨n, d', v, shape, hm, hrest⟩ | ⟨ht, hn, v, shape, hv, hs, hk⟩)
    · exact ⟨n, d', v, shape, List.mem_cons_of_mem _ hm, hrest⟩
    · exact ⟨name, d, v, shape, List.mem_cons_self, ht, hn, hv, hs, hk⟩

theorem mem_addVariables {ds : List (String × Definition)} (h : addVariables o t es ds = .ok out) :
    k ∈ out.keys ↔ k ∈ es.keys ∨ Tables o t ds k := by
  induction ds generalizing es with
  | nil =>
    cases h
    simp [Tables]
  | cons e ds ih =>
    obtain ⟨name, d⟩ := e
    rw [tables_cons]
    simp only [addVariables] at h
    split at h
    · rename_i hc
      simp only [Bool.and_eq_true, bne_iff_ne] at hc
      split at h
      · cases h
      · rename_i v hv
        split at h
        · cases h
        · rename_i shape hs
          have hpoints : (∃ v' shape', o.variableOf name = .ok v' ∧
              Shape.ofDimensions v'.dimensions = .ok shape' ∧ k ∈ t.indicesOver name shape') ↔
              k ∈ t.indicesOver name shape := by
            simp [hv, hs]
          rw [ih h, mem_addPoints, or_right_comm, or_assoc, hpoints]
          simp only [hc, true_and, ne_eq, not_false_eq_true]
          rfl
    · rename_i hc
      have hnot : ¬(d.isTabled = true ∧ name ≠ Reaction.coefficientName) := by simpa using hc
      rw [ih h]
      exact or_congr_right
        ⟨.inl, fun hin => hin.resolve_right fun ⟨ht, hn, _⟩ => hnot ⟨ht, hn⟩⟩

theorem mem_addCoefficients : k ∈ (addCoefficients t es).keys ↔
    k ∈ es.keys ∨ k ∈ (Reaction.stoichiometry t.reactions).map Prod.fst :=
  Dict.mem_keys_insertAll Prod.fst _ _

theorem mem_setKnown {v : KnownValue} : k ∈ (setKnown es v).keys ↔ k ∈ es.keys := by
  unfold setKnown
  split
  · rename_i hc
    rw [Dict.mem_keys_insert]
    refine ⟨fun h => h.elim (fun he => ?_) id, .inr⟩
    rw [he]
    exact Dict.contains_iff.1 hc
  · rfl

theorem mem_setAllKnown {known : List KnownValue} :
    k ∈ (known.foldl setKnown es).keys ↔ k ∈ es.keys := by
  induction known generalizing es with
  | nil => rfl
  | cons v known ih => rw [List.foldl_cons, ih, mem_setKnown]

theorem standardEntries_keys {defs : Dict String Definition}
    {entries result : List (ParameterIndex × Option (ParameterValue Float))}
    (h : standardEntries o defs entries = .ok result) :
    result.map Prod.fst = entries.map Prod.fst := by
  induction entries generalizing result with
  | nil =>
    cases h
    rfl
  | cons e entries ih =>
    simp only [standardEntries] at h
    split at h
    · cases h
    · split at h
      · cases h
      · rename_i hrest
        cases h
        rw [List.map_cons, List.map_cons, ih hrest]

theorem mem_declared {m : Model} (h : declared o t m = .ok es) :
    k ∈ es.keys ↔ Tables o t m.definitions.entries k ∨
      m.definitions.contains Reaction.coefficientName = true ∧
        k ∈ (Reaction.stoichiometry t.reactions).map Prod.fst := by
  simp only [declared] at h
  split at h
  · cases h
  · rename_i vs hvs
    have hempty : k ∉ (Dict.empty : TableEntries).keys := List.not_mem_nil
    cases h
    by_cases hc : m.definitions.contains Reaction.coefficientName = true
    · rw [if_pos hc, mem_addCoefficients, mem_addVariables hvs]
      simp [hempty, hc]
    · rw [if_neg hc, mem_addVariables hvs]
      simp [hempty, hc]

/-- A table comes from its declared entries, with known values set, in standard units. -/
theorem build_ok {m : Model} {known : List KnownValue} {table : ParameterTable}
    (h : build o known t m = .ok table) : ∃ es result, declared o t m = .ok es ∧
      standardEntries o m.definitions (known.foldl setKnown es).entries = .ok result ∧
      table = ⟨Dict.ofList result⟩ := by
  simp only [build] at h
  split at h
  · cases h
  · rename_i es hes
    split at h
    · cases h
    · rename_i result hresult
      cases h
      exact ⟨es, result, hes, hresult, rfl⟩

theorem mem_indices_build {m : Model} {known : List KnownValue} {table : ParameterTable}
    (h : build o known t m = .ok table) :
    k ∈ table.indices ↔ Tables o t m.definitions.entries k ∨
      m.definitions.contains Reaction.coefficientName = true ∧
        k ∈ (Reaction.stoichiometry t.reactions).map Prod.fst := by
  obtain ⟨es, result, hes, hresult, rfl⟩ := build_ok h
  have hkeys : k ∈ (Dict.ofList result).keys ↔ k ∈ es.keys := by
    rw [Dict.mem_keys_ofList, standardEntries_keys hresult]
    exact mem_setAllKnown
  rw [indices, hkeys, mem_declared hes]

end ParameterTable

end Kinetics

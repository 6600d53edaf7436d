import Kinetics.Proofs.Keys
import Kinetics.Proofs.Space.Naming

/-!
# Kinetics.Proofs.Distinct

Keys that stand for one scalar each. A plant that lists no species and no reaction twice has an
index of its own for every point, so that the table lists as many scalars as there are points, and
no two cells of the states have one key. A plant that lists one twice has two points with one index.
-/

namespace Kinetics

namespace Topology

variable {t : Topology} {s : Shape} {name : String} {p : Plant}

theorem nodup_indicesOver (hp : t.Placed) (ht : t.Named) (hs : t.TellsApart s) :
    (t.indicesOver name s).Nodup :=
  (List.nodup_map_iff_inj_on (nodup_points ht s)).2 fun _ hq _ hr he =>
    indexAt_injOn hp ht hs name hq hr he

theorem length_indicesOver : (t.indicesOver name s).length = t.count s := by
  rw [indicesOver, List.length_map, length_points]

/-- Indices tell the points of all shapes apart exactly where no species and no reaction is listed
twice. -/
theorem injOn_iff (h : ofPlant p = .ok t) :
    (∀ name s, Set.InjOn (t.indexAt name) {q | q ∈ t.points s}) ↔
      p.species.Nodup ∧ p.reactions.Nodup := by
  obtain ⟨hspecies, hreactions⟩ := ofPlant_lists h
  rw [← hspecies, ← hreactions]
  constructor
  · intro hinj
    exact nodup_of_injOn (hinj "")
  · rintro ⟨hs, hr⟩ name s
    exact indexAt_injOn (ofPlant_placed h) (ofPlant_named h) ⟨fun _ => hs, fun _ => hr⟩ name

end Topology

namespace Program

namespace Plan

variable {p : Plan} {b : VectorBlock} {t : Topology} {q : Point} {k : ParameterIndex}

theorem ne_append_fluxSuffix (name : String) : name ≠ name ++ fluxSuffix := by
  intro h
  have hlength := congrArg String.length h
  rw [String.length_append] at hlength
  have hsuffix : fluxSuffix.length = 5 := rfl
  omega

theorem nodup_resultNames : b.resultNames.Nodup := by
  unfold VectorBlock.resultNames
  split
  · simpa using ne_append_fluxSuffix b.variableName
  · exact List.nodup_singleton _

/-- Where indices tell points apart, and the blocks have names of their own, so have the rows. -/
theorem nodup_rows_keys (hp : p.topology.Placed) (ht : p.topology.Named)
    (hshapes : ∀ b ∈ p.states, p.topology.TellsApart b.shape)
    (hnames : (p.states.flatMap VectorBlock.resultNames).Nodup) : (p.rows.map Prod.fst).Nodup := by
  rw [keys_rows]
  refine List.nodup_flatMap.2 ⟨fun b hb => List.nodup_flatMap.2 ⟨fun q _ => ?_, ?_⟩, ?_⟩
  · exact nodup_resultNames.map fun name other h => congrArg ParameterIndex.name h
  · -- within a block, a key tells the point
    refine (Topology.nodup_points ht b.shape).imp_of_mem fun {q r} hq hr hne k hk hk' => ?_
    obtain ⟨name, -, rfl⟩ := List.mem_map.1 hk
    obtain ⟨other, -, he⟩ := List.mem_map.1 hk'
    obtain rfl : other = name := congrArg ParameterIndex.name he
    exact hne (Topology.indexAt_injOn hp ht (hshapes b hb) other hq hr he.symm)
  · -- a key tells the block by its name
    have hname {b : VectorBlock} {k : ParameterIndex}
        (hk : k ∈ (p.topology.points b.shape).flatMap fun q =>
          b.resultNames.map fun name => p.topology.indexAt name q) : k.name ∈ b.resultNames := by
      obtain ⟨q, -, hk⟩ := List.mem_flatMap.1 hk
      obtain ⟨name, hin, rfl⟩ := List.mem_map.1 hk
      exact hin
    exact (List.nodup_flatMap.1 hnames).2.imp fun {b c} hbc k hk hk' => hbc (hname hk) (hname hk')

end Plan

end Program

namespace Simulation

open Program

variable {o : Ontology} {c : ModelContext} {options : SolverOptions} {s : Simulation} {p : Plan}
  {t : Topology} {m : Model} {known : List KnownValue} {table : ParameterTable}

/-- The entries of an input or state are its points. -/
theorem indicesOf_perm (h : ParameterTable.build o known t m = .ok table)
    (hv : ∀ name, m.definitions.contains name = true → ∃ v, o.variableOf name = .ok v)
    (hr : ∀ r ∈ t.reactions, ∀ p ∈ r.participants, p.1 ∈ t.species)
    {name : String} {d : Definition} {v : Variable} {shape : Shape}
    (hd : m.definitions.find? name = some d)
    (ht : d.isTabled = true ∨ name = Reaction.coefficientName) (hvar : o.variableOf name = .ok v)
    (hs : Names.layoutShape name v = .ok shape) (hnodup : (t.indicesOver name shape).Nodup) :
    (table.indicesOf name).Perm (t.indicesOver name shape) := by
  refine (List.perm_ext_iff_of_nodup (Dict.nodup_keys.filter _) hnodup).2 fun k => ?_
  rw [List.mem_filter, beq_iff_eq, ← ParameterTable.indices, mem_table h hv hr,
    mem_indicesOver_iff hvar hs]
  constructor
  · rintro ⟨⟨hin, -⟩, hname⟩
    exact ⟨hname, hin⟩
  · rintro ⟨rfl, hin⟩
    exact ⟨⟨hin, d, hd, ht⟩, rfl⟩

/-- What a plant has to be like for every key to stand for one scalar. Indices are injective on the
points of all shapes iff no species and no reaction is listed twice. For a shape whose points they
tell apart, the table has as many entries of an input or state as there are points; and if they tell
the points of all states apart, and these have names of their own, so have the rows of the result. -/
theorem keys_distinct (o : Ontology) (c : ModelContext) (options : SolverOptions) :
    (∀ t, Topology.ofPlant c.plant = .ok t →
      ((∀ name shape, Set.InjOn (t.indexAt name) {q | q ∈ t.points shape}) ↔
        c.plant.species.Nodup ∧ c.plant.reactions.Nodup) ∧
      ∀ shape, t.TellsApart shape → ∀ name,
        Set.InjOn (t.indexAt name) {q | q ∈ t.points shape} ∧
        (t.indicesOver name shape).Nodup ∧ (t.indicesOver name shape).length = t.count shape) ∧
    ∀ s p, assemble o c options = .ok s → planOf o c options = .ok p →
      (∀ name d v shape, p.model.definitions.find? name = some d →
        (d.isTabled = true ∨ name = Reaction.coefficientName) → o.variableOf name = .ok v →
        Names.layoutShape name v = .ok shape → p.topology.TellsApart shape →
          (s.table.indicesOf name).length = p.topology.count shape) ∧
      ((∀ b ∈ p.states, p.topology.TellsApart b.shape) →
        (p.states.flatMap VectorBlock.resultNames).Nodup → s.resultKeys.tail.Nodup) := by
  refine ⟨fun t ht => ⟨Topology.injOn_iff ht, fun shape hs name => ?_⟩, fun s p h hp => ?_⟩
  · have hplaced := Topology.ofPlant_placed ht
    have hnamed := Topology.ofPlant_named ht
    exact ⟨Topology.indexAt_injOn hplaced hnamed hs name,
      Topology.nodup_indicesOver hplaced hnamed hs, Topology.length_indicesOver⟩
  · obtain ⟨p', hp', htable, -, hresults⟩ := assemble_ok h
    obtain rfl : p' = p := Except.ok.inj (hp'.symm.trans hp)
    obtain ⟨ht, hm, -⟩ := planOf_ok hp
    have hplaced := Topology.ofPlant_placed ht
    have hnamed := Topology.ofPlant_named ht
    constructor
    · intro name d v shape hd htabled hvar hlayout hs
      have hperm := indicesOf_perm htable (Model.resolve_defines hm).1
        (Topology.ofPlant_declared ht) hd htabled hvar hlayout
        (Topology.nodup_indicesOver hplaced hnamed hs)
      rw [hperm.length_eq, Topology.length_indicesOver]
    · intro hshapes hnames
      rw [hresults, Plan.resultKeys, List.tail_cons]
      exact Plan.nodup_rows_keys hplaced hnamed hshapes hnames

/-- The only block is that of `C`, which is no flux, and `C` has two scalars. -/
def conversionDistinct (p : Plan) : Bool :=
  p.model.definitions.find? "C" = some (.state "Balance") ∧
    p.states.map (fun b => (b.shape, b.resultNames)) = [(.streamSpecies, ["C"])] ∧
    p.topology.count .streamSpecies = 2

/-- The two concentrations of a stream have an entry and a row each; a plant that lists one species
twice has not even an index for each. -/
theorem keys_distinct_conversion :
    (∃ s, assemble conversion conversionContext .standard = .ok s ∧
      (s.table.indicesOf "C").length = 2 ∧ s.resultKeys.tail.Nodup) ∧
    ∃ t, Topology.ofPlant { Plant.empty with species := ["A", "A"] } = .ok t ∧
      ¬∀ name shape, Set.InjOn (t.indexAt name) {q | q ∈ t.points shape} := by
  constructor
  · obtain ⟨s, hs⟩ := conversion_assembles
    obtain ⟨p, hp, -⟩ := assemble_ok hs
    obtain ⟨htable, hrows⟩ := (keys_distinct conversion conversionContext .standard).2 s p hs hp
    have hplanned : (planOf conversion conversionContext .standard).toOption.any
        conversionDistinct = true := by decide +kernel
    simp only [hp, Except.toOption, Option.any_some, conversionDistinct, decide_eq_true_eq]
      at hplanned
    obtain ⟨hstate, hblocks, hcount⟩ := hplanned
    obtain ⟨b, hb, hshape⟩ := List.map_eq_singleton_iff.1 hblocks
    obtain ⟨hshape, hnames⟩ := Prod.mk.inj hshape
    have happart : p.topology.TellsApart .streamSpecies := by
      constructor
      · intro h
        cases h
      · intro h
        simp [Shape.axes] at h
    refine ⟨s, hs, ?_, hrows ?_ ?_⟩
    · rw [htable "C" _ _ _ hstate (.inl rfl) rfl rfl happart, hcount]
    · simpa [hb, hshape] using happart
    · simp [hb, hnames]
  · refine ⟨_, rfl, fun hinj => ?_⟩
    have htwice := ((keys_distinct conversion
      { conversionContext with plant := { Plant.empty with species := ["A", "A"] } }
      .standard).1 _ rfl).1.1 hinj
    exact absurd htwice.1 (by decide)

end Simulation

end Kinetics

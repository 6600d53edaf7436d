import Kinetics.Proofs.Genuine.Program
import Kinetics.Proofs.Keys
import Kinetics.Proofs.Parameter.Table
import Kinetics.Proofs.Space.Point

/-!
# Kinetics.Proofs.Genuine.Simulation

Assembling a program fails with genuine faults only: the parameter table asks for the definitions
of its own entries, the text for names and formulas that are there. Where a position is used in
place of a name it lies in range: a point only has positions that the plant has, and the normal
form of a line only takes slices out of it.
-/

namespace Kinetics

namespace Code

/-- A lexeme is a slice at the front of a line. -/
theorem takeToken_slice (c : Char) (r : List Char) : ∃ n, n ≤ (c :: r).length ∧
    (takeToken c r).1.text = (c :: r).take n ∧ (takeToken c r).2 = (c :: r).drop n := by
  have happend := takeToken_append c r
  refine ⟨(takeToken c r).1.text.length, ?_, ?_, ?_⟩
  · rw [← happend, List.length_append]
    exact Nat.le_add_right _ _
  · rw [← happend, List.take_left]
  · rw [← happend, List.drop_left]

/-- The content of a bracket is the slice between the position of the bracket and that of the one
that closes it. -/
theorem splitGroup_slice {ts inside rest : List Token} {closer : Token} {i : Nat}
    (h : splitGroup 0 (ts.drop (i + 1)) = some (inside, closer, rest)) :
    ∃ j, i < j ∧ ts[j]? = some closer ∧ inside = (ts.take j).drop (i + 1) ∧
      rest = ts.drop (j + 1) := by
  have happend := splitGroup_append h
  refine ⟨i + 1 + inside.length, by omega, ?_, ?_, ?_⟩
  · rw [← List.getElem?_drop, ← happend, List.getElem?_append_right (Nat.le_refl _), Nat.sub_self]
    rfl
  · rw [List.drop_take, ← happend, Nat.add_sub_cancel_left, List.take_left]
  · rw [Nat.add_assoc (i + 1), ← List.drop_drop, ← happend, ← List.drop_drop, List.drop_left]
    rfl

end Code

namespace Topology

variable {t : Topology} {s : Shape} {q : Point}

/-- Every position of the point is that of a member of the plant. -/
structure Locates (t : Topology) (q : Point) : Prop where
  phase : ∀ k i, q.phase = some (k, i) → ∃ g, (t.phases k)[i]? = some g
  stream : ∀ i, q.stream = some i → ∃ g, t.streams[i]? = some g
  reaction : ∀ i, q.reaction = some i → ∃ r, t.reactions[i]? = some r
  species : ∀ i, q.species = some i → ∃ name, t.species[i]? = some name

theorem locates_of_mem_points (h : t.Placed) (hq : q ∈ t.points s) : t.Locates q := by
  obtain ⟨hform, hlt⟩ := points_form h hq
  -- a coordinate that the form of the point gives belongs to an axis of the shape
  have hbound : ∀ a i, q.coordinate a = some i → a ∈ s.axes → i < t.extent a := by
    intro a i hi ha
    have := hlt a ha
    rwa [hi] at this
  have haxis : ∀ {a : Axis} {i j : Nat}, (if s.axes.contains a then some j else none) = some i →
      a ∈ s.axes := by
    intro a i j hi
    split at hi
    · rename_i ha
      exact List.contains_iff_mem.1 ha
    · cases hi
  refine ⟨fun k i hi => ?_, fun i hi => ?_, fun i hi => ?_, fun i hi => ?_⟩
  · have hk : s.phase? = some k := by
      rw [hform] at hi
      obtain ⟨k', hk', he⟩ := Option.map_eq_some_iff.1 hi
      cases he
      exact hk'
    have hcoordinate : q.coordinate (.phase k) = some i := by simp [Point.coordinate, hi]
    exact ⟨_, List.getElem?_eq_getElem (hbound (.phase k) i hcoordinate (Shape.phase?_eq_some.1 hk))⟩
  · have ha : .stream ∈ s.axes := by
      rw [hform] at hi
      exact haxis hi
    exact ⟨_, List.getElem?_eq_getElem (hbound .stream i hi ha)⟩
  · have ha : .reaction ∈ s.axes := by
      rw [hform] at hi
      exact haxis hi
    exact ⟨_, List.getElem?_eq_getElem (hbound .reaction i hi ha)⟩
  · have ha : .species ∈ s.axes := by
      rw [hform] at hi
      exact haxis hi
    exact ⟨_, List.getElem?_eq_getElem (hbound .species i hi ha)⟩

end Topology

namespace ParameterTable

variable {o : Ontology} {t : Topology} {m : Model} {es : TableEntries} {e : Fault}

@[grind →] theorem addVariables_genuine {ds : List (String × Definition)}
    (h : addVariables o t es ds = .error e) : e.Genuine := by
  fun_induction addVariables o t es ds <;> grind

/-- An entry stands for a variable of the model. -/
theorem contains_of_mem_declared (h : declared o t m = .ok es) {k : ParameterIndex}
    (hk : k ∈ es.keys) : m.definitions.contains k.name = true := by
  rcases (mem_declared h).1 hk with ⟨name, d, v, shape, hd, -, -, -, -, hk⟩ | ⟨hc, hk⟩
  · rw [Simulation.name_of_mem_indicesOver hk, Dict.contains_iff]
    exact List.mem_map_of_mem (f := Prod.fst) hd
  · rw [Reaction.name_of_mem_stoichiometry hk]
    exact hc

theorem standardEntries_genuine {defs : Dict String Definition}
    {entries : List (ParameterIndex × Option (ParameterValue Float))}
    (hd : ∀ x ∈ entries, defs.contains x.1.name = true)
    (h : standardEntries o defs entries = .error e) : e.Genuine := by
  induction entries with
  | nil => cases h
  | cons x entries ih =>
    obtain ⟨hx, hentries⟩ := List.forall_mem_cons.1 hd
    simp only [standardEntries] at h
    split at h
    · rename_i hentry
      cases h
      unfold standardEntry at hentry
      split at hentry
      · cases hentry
      · split at hentry
        · rename_i hv
          cases hentry
          exact Ontology.variableOf_genuine hv
        · split at hentry
          · cases hentry
          · split at hentry
            · rename_i hg
              rw [Dict.get_error hg] at hx
              cases hx
            · split at hentry
              · cases hentry
              · cases hentry
                nofun
    · split at h
      · rename_i hrest
        cases h
        exact ih hentries hrest
      · cases h

/-- Making the table looks up the definitions of its own entries only. -/
theorem build_genuine {known : List KnownValue} (h : build o known t m = .error e) :
    e.Genuine := by
  simp only [build] at h
  split at h
  · rename_i hes
    cases h
    unfold declared at hes
    grind
  · rename_i es hes
    split at h
    · rename_i hstandard
      cases h
      refine standardEntries_genuine (fun x hx => ?_) hstandard
      exact contains_of_mem_declared hes (mem_setAllKnown.1 (List.mem_map_of_mem hx))
    · cases h

end ParameterTable

namespace Simulation

open Program

variable {o : Ontology} {c : ModelContext} {options : SolverOptions} {e : Fault}

theorem assemble_error (h : assemble o c options = .error e) : e.Genuine := by
  simp only [assemble, bind_error] at h
  rcases h with h | ⟨_, -, h | ⟨t, -, h | ⟨m, hm, h | ⟨_, -, h | ⟨table, -, h | ⟨plan, hplan, h |
    ⟨statements, -, h⟩⟩⟩⟩⟩⟩⟩
  · exact ModelContext.validate_genuine h
  · exact Topology.ofPlant_genuine h
  · exact Model.resolve_genuine h
  · unfold checkKind at h
    grind [Fault.Genuine]
  · exact ParameterTable.build_genuine h
  · exact Plan.ofModel_genuine (Model.resolve_listed hm) h
  · exact (Plan.ofModel_provided (Model.resolve_listed hm) hplan).statementsOf_genuine h
  · cases h

/-- There is a program, or a fault that is reported with a code and is no missing entry, whatever the
ontology, the context and the options; every point has positions in the plant only; and lexemes and
the contents of brackets are slices of the line that they are taken from. -/
theorem assemble_total (o : Ontology) (c : ModelContext) (options : SolverOptions) :
    ((∃ s, assemble o c options = .ok s) ∨ ∃ e, assemble o c options = .error e ∧
      (∀ name, e ≠ .unlisted name) ∧ e.report.code ≠ .noError) ∧
    (∀ t, Topology.ofPlant c.plant = .ok t → ∀ s, ∀ q ∈ t.points s, t.Locates q) ∧
    (∀ c r, ∃ n, n ≤ (c :: r).length ∧ (Code.takeToken c r).1.text = (c :: r).take n ∧
      (Code.takeToken c r).2 = (c :: r).drop n) ∧
    ∀ (ts : List Code.Token) i inside closer rest,
      Code.splitGroup 0 (ts.drop (i + 1)) = some (inside, closer, rest) →
      ∃ j, i < j ∧ ts[j]? = some closer ∧ inside = (ts.take j).drop (i + 1) ∧
        rest = ts.drop (j + 1) := by
  refine ⟨?_, fun t ht s q hq => ?_, Code.takeToken_slice, ?_⟩
  · cases h : assemble o c options with
    | ok s => exact .inl ⟨s, rfl⟩
    | error e =>
      have hgenuine := assemble_error h
      exact .inr ⟨e, rfl, hgenuine, Fault.genuine_iff.1 hgenuine⟩
  · exact Topology.locates_of_mem_points (Topology.ofPlant_placed ht) hq
  · intro ts i inside closer rest h
    exact Code.splitGroup_slice h

/-- The conversion is assembled, its species have a position in the stream and in the reaction, and
without an accumulation there is a fault with a code. -/
theorem assemble_total_conversion :
    (∃ s, assemble conversion conversionContext .standard = .ok s) ∧
    (∃ e, assemble conversion { conversionContext with selection := Selection.empty } .standard =
      .error e ∧ e.report.code ≠ .noError) ∧
    (∃ t, Topology.ofPlant conversionContext.plant = .ok t ∧
      t.Locates ⟨none, some 0, some 0, some 1⟩) ∧
    ∃ j, 0 < j ∧ [Code.Token.opening .round, .comma, .closing .round][j]? =
      some (Code.Token.closing .round) := by
  obtain ⟨-, hpoints, -, hslice⟩ := assemble_total conversion conversionContext .standard
  refine ⟨conversion_assembles, ?_, ?_, ?_⟩
  · obtain ⟨⟨s, hs⟩ | ⟨e, he, -, hcode⟩, -⟩ := assemble_total conversion
      { conversionContext with selection := Selection.empty } .standard
    · have hfails : (assemble conversion { conversionContext with selection := Selection.empty }
          .standard).toBool = false := by decide +kernel
      rw [hs] at hfails
      cases hfails
    · exact ⟨e, he, hcode⟩
  · obtain ⟨t, ht, hq⟩ := exists_ok_of_map (x := Topology.ofPlant conversionContext.plant)
      (f := fun t => decide (⟨none, some 0, some 0, some 1⟩ ∈ t.points .streamReactionSpecies))
      (b := true) (by decide +kernel)
    exact ⟨t, ht, hpoints t ht .streamReactionSpecies _ (of_decide_eq_true hq)⟩
  · obtain ⟨j, hj, hcloser, -⟩ := hslice [.opening .round, .comma, .closing .round] 0 [.comma]
      (.closing .round) [] rfl
    exact ⟨j, hj, hcloser⟩

end Simulation

end Kinetics

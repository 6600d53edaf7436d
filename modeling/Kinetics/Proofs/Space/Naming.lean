import Kinetics.Proofs.Dict
import Kinetics.Proofs.Reaction.Stoichiometry
import Kinetics.Proofs.Space.Point
import Mathlib.Data.List.Nodup
import Mathlib.Data.Set.Function

/-!
# Kinetics.Proofs.Space.Naming

Points are positions, but they are addressed by names. The names of streams and phases are the keys
of a map, so that no two are the same; reactions and species are lists, in which a name can occur
twice. What a stream, a phase or a reaction holds of the species are first positions of names,
whereas the points over species alone run through all positions. So different points have different
indices exactly where no reaction and no species is listed twice.
-/

namespace Kinetics

namespace Reaction

theorem nodup_eraseDups (names : List String) : names.eraseDups.Nodup := by
  induction hn : names.length using Nat.strong_induction_on generalizing names with
  | _ n ih =>
    cases names with
    | nil => simp
    | cons name names =>
      have hlt : (names.filter fun other => !other == name).length < n := by
        rw [← hn, List.length_cons]
        exact Nat.lt_succ_of_le (List.length_filter_le _ _)
      rw [List.eraseDups_cons, List.nodup_cons, List.mem_eraseDups, List.mem_filter]
      exact ⟨by simp, ih _ hlt _ rfl⟩

/-- A reaction involves a species once. -/
theorem nodup_participantsOf {species : List String} {signed : List (String × Coefficient)} :
    ((participantsOf species signed).map Prod.fst).Nodup := by
  rw [participantsOf, List.map_filterMap]
  refine (nodup_eraseDups species).filterMap fun a b name ha hb => ?_
  simp only [Option.map_map, Option.mem_def, Option.map_eq_some_iff, Function.comp_apply] at ha hb
  obtain ⟨-, -, rfl⟩ := ha
  obtain ⟨-, -, rfl⟩ := hb
  rfl

end Reaction

/-- The position of a point among the phases of its kind. -/
def Point.phasePosition (q : Point) : Option Nat :=
  q.phase.map Prod.snd

namespace Topology

variable {t : Topology} {s : Shape} {q r : Point} {p : Plant}

theorem readReactions_read {species texts : List String} {rs : List Reaction}
    (h : readReactions species texts = .ok rs) :
    rs.map Reaction.text = texts ∧ ∀ r ∈ rs, (r.participants.map Prod.fst).Nodup := by
  induction texts generalizing rs with
  | nil =>
    cases h
    exact ⟨rfl, nofun⟩
  | cons text texts ih =>
    simp only [readReactions] at h
    split at h
    · cases h
    · rename_i r hr
      split at h
      · cases h
      · rename_i rest hrest
        cases h
        obtain ⟨htexts, hnodup⟩ := ih hrest
        obtain ⟨signed, rfl⟩ := Reaction.read_ok hr
        refine ⟨by rw [List.map_cons, htexts], fun r' hr' => ?_⟩
        rcases List.mem_cons.1 hr' with rfl | hr'
        · exact Reaction.nodup_participantsOf
        · exact hnodup r' hr'

/-- The position is the first one of its species. -/
def IsFirst (t : Topology) (i : Nat) : Prop :=
  ∃ name, t.species.idxOf? name = some i

/-- The groups have names of their own, and hold first positions, each once. -/
structure NamedGroups (t : Topology) (gs : List Group) : Prop where
  names : (gs.map Group.name).Nodup
  first : ∀ g ∈ gs, ∀ i ∈ g.species, t.IsFirst i
  distinct : ∀ g ∈ gs, g.species.Nodup

/-- What the names of a plant say of its positions. -/
structure Named (t : Topology) : Prop where
  streams : t.NamedGroups t.streams
  phases : ∀ k, t.NamedGroups (t.phases k)
  participants : ∀ r ∈ t.reactions, (t.participants r).Nodup

theorem namedGroups (gs : Dict String (List String)) : t.NamedGroups (groups t.species gs) := by
  refine ⟨?_, fun g hg i hi => ?_, fun g hg => ?_⟩
  · rw [groups, List.map_map]
    exact Dict.nodup_keys
  · obtain ⟨e, -, rfl⟩ := List.mem_map.1 hg
    obtain ⟨name, -, hname⟩ := List.any_eq_true.1 (List.mem_filter.1 hi).2
    exact ⟨name, beq_iff_eq.1 hname⟩
  · obtain ⟨e, -, rfl⟩ := List.mem_map.1 hg
    exact List.nodup_range.filter _

theorem participants_nodup {reaction : Reaction}
    (h : (reaction.participants.map Prod.fst).Nodup) : (t.participants reaction).Nodup := by
  have hmap : t.participants reaction =
      (reaction.participants.map Prod.fst).filterMap fun name => t.species.idxOf? name := by
    rw [List.filterMap_map]
    rfl
  -- a position belongs to one name only
  rw [hmap]
  refine h.filterMap fun a b i ha hb => ?_
  obtain ⟨_, ha, -⟩ := List.idxOf?_eq_some_iff.1 (Option.mem_def.1 ha)
  obtain ⟨_, hb, -⟩ := List.idxOf?_eq_some_iff.1 (Option.mem_def.1 hb)
  exact ha.symm.trans hb

theorem ofPlant_named (h : ofPlant p = .ok t) : t.Named := by
  unfold ofPlant at h
  split at h
  · cases h
  · rename_i rs hrs
    cases h
    refine ⟨namedGroups p.streams, fun k => ?_, fun r hr => ?_⟩
    · cases k with
      | gas => exact namedGroups p.gases
      | solid => exact namedGroups p.solids
    · exact participants_nodup ((readReactions_read hrs).2 r hr)

theorem ofPlant_lists (h : ofPlant p = .ok t) :
    t.species = p.species ∧ t.reactions.map Reaction.text = p.reactions := by
  unfold ofPlant at h
  split at h
  · cases h
  · rename_i rs hrs
    cases h
    exact ⟨rfl, (readReactions_read hrs).1⟩

theorem isFirst_of_nodup (h : t.species.Nodup) {i : Nat} (hi : i < t.species.length) :
    t.IsFirst i := by
  refine ⟨t.species[i], List.idxOf?_eq_some_iff.2 ⟨hi, rfl, fun j hj he => ?_⟩⟩
  have := (h.getElem_inj_iff).1 he
  omega

theorem isFirst_of_participant {reaction : Reaction} {i : Nat} (h : i ∈ t.participants reaction) :
    t.IsFirst i := by
  obtain ⟨p, -, hp⟩ := List.mem_filterMap.1 h
  exact ⟨p.1, hp⟩

theorem IsFirst.eq {i j : Nat} (hi : t.IsFirst i) (hj : t.IsFirst j)
    (he : t.species[i]? = t.species[j]?) : i = j := by
  obtain ⟨name, hi⟩ := hi
  obtain ⟨other, hj⟩ := hj
  obtain ⟨hlt, hname, -⟩ := List.idxOf?_eq_some_iff.1 hi
  obtain ⟨hlt', hother, -⟩ := List.idxOf?_eq_some_iff.1 hj
  rw [List.getElem?_eq_getElem hlt, List.getElem?_eq_getElem hlt', hname, hother] at he
  cases he
  exact Option.some.inj (hi.symm.trans hj)

/-- Except over species alone, a point takes its species at the first position of the name. -/
theorem isFirst_of_mem_points (ht : t.Named) (hs : s = .species → t.species.Nodup)
    (hq : q ∈ t.points s) {i : Nat} (hi : q.species = some i) : t.IsFirst i := by
  cases s with
  | species =>
    simp only [points, List.mem_map, List.mem_range] at hq
    obtain ⟨j, hj, rfl⟩ := hq
    cases hi
    exact isFirst_of_nodup (hs rfl) hj
  | streamSpecies =>
    simp only [points, List.mem_flatMap, List.mem_map, Prod.exists,
      List.mem_zipIdx_iff_getElem?] at hq
    obtain ⟨g, _, hg, j, hj, rfl⟩ := hq
    cases hi
    exact ht.streams.first g (List.mem_of_getElem? hg) _ hj
  | reactionSpecies =>
    simp only [points, List.mem_flatMap, List.mem_map, Prod.exists,
      List.mem_zipIdx_iff_getElem?] at hq
    obtain ⟨r, _, hr, j, hj, rfl⟩ := hq
    cases hi
    exact isFirst_of_participant hj
  | streamReactionSpecies =>
    simp only [points, List.mem_flatMap, List.mem_map, Prod.exists, List.mem_zipIdx_iff_getElem?,
      List.mem_filter] at hq
    obtain ⟨g, _, hg, r, _, hr, j, ⟨hj, -⟩, rfl⟩ := hq
    cases hi
    exact isFirst_of_participant hj
  | phaseSpecies k =>
    simp only [points, List.mem_flatMap, List.mem_map, Prod.exists,
      List.mem_zipIdx_iff_getElem?] at hq
    obtain ⟨g, _, hg, j, hj, rfl⟩ := hq
    cases hi
    exact (ht.phases k).first g (List.mem_of_getElem? hg) _ hj
  | phaseStreamSpecies k =>
    simp only [points, List.mem_flatMap, List.mem_map, Prod.exists, List.mem_zipIdx_iff_getElem?,
      List.mem_filter] at hq
    obtain ⟨g, _, hg, h, _, hh, j, ⟨hj, -⟩, rfl⟩ := hq
    cases hi
    exact (ht.phases k).first g (List.mem_of_getElem? hg) _ hj
  | scalar =>
    cases List.mem_singleton.1 hq
    cases hi
  | stream =>
    simp only [points, List.mem_map] at hq
    obtain ⟨_, -, rfl⟩ := hq
    cases hi
  | reaction =>
    simp only [points, List.mem_map] at hq
    obtain ⟨_, -, rfl⟩ := hq
    cases hi
  | streamReaction =>
    simp only [points, List.mem_flatMap, List.mem_map] at hq
    obtain ⟨_, -, _, -, rfl⟩ := hq
    cases hi
  | phase k =>
    simp only [points, List.mem_map] at hq
    obtain ⟨_, -, rfl⟩ := hq
    cases hi
  | phaseStream k =>
    simp only [points, List.mem_flatMap, List.mem_map] at hq
    obtain ⟨_, -, _, -, rfl⟩ := hq
    cases hi

/-- A member of a list is told by its name if no two names are the same. -/
theorem eq_of_same_name {α : Type} {f : α → String} {l : List α} (h : (l.map f).Nodup) {i j : Nat}
    (hi : i < l.length) (hj : j < l.length) (he : l[i]?.map f = l[j]?.map f) : i = j := by
  rw [← List.getElem?_map, ← List.getElem?_map, List.getElem?_eq_getElem (by simpa using hi),
    List.getElem?_eq_getElem (by simpa using hj)] at he
  exact h.getElem_inj_iff.1 (Option.some.inj he)

theorem phase_of_coordinate {k : Phase} {i : Nat} (h : q.coordinate (.phase k) = some i) :
    q.phase = some (k, i) := by
  cases hq : q.phase with
  | none =>
    simp [Point.coordinate, hq] at h
  | some at_ =>
    obtain ⟨kind, j⟩ := at_
    simp only [Point.coordinate, hq] at h
    by_cases hk : kind = k
    · rw [if_pos hk] at h
      cases h
      rw [hk]
    · rw [if_neg hk] at h
      cases h

/-- The names of the plant tell the points of a shape apart: those over species alone if no species
is listed twice, and those over reactions if no reaction is. -/
def TellsApart (t : Topology) (s : Shape) : Prop :=
  (s = .species → t.species.Nodup) ∧ (.reaction ∈ s.axes → (t.reactions.map Reaction.text).Nodup)

theorem indexAt_injOn (hp : t.Placed) (ht : t.Named) (hs : t.TellsApart s) (name : String) :
    Set.InjOn (t.indexAt name) {q | q ∈ t.points s} := by
  intro q hq r hr he
  refine along_injective hp hq hr (List.map_congr_left fun a ha => ?_)
  obtain ⟨i, hi, hlt⟩ := coordinate_points hp hq ha
  obtain ⟨j, hj, hlt'⟩ := coordinate_points hp hr ha
  rw [hi, hj, Option.getD_some, Option.getD_some]
  cases a with
  | phase k =>
    have hname := congrArg ParameterIndex.phase he
    simp only [indexAt, phase_of_coordinate hi, phase_of_coordinate hj, Option.bind_some] at hname
    exact eq_of_same_name (ht.phases k).names hlt hlt' hname
  | stream =>
    have hname := congrArg ParameterIndex.stream he
    rw [Point.coordinate_stream] at hi hj
    simp only [indexAt, hi, hj, Option.bind_some] at hname
    exact eq_of_same_name ht.streams.names hlt hlt' hname
  | reaction =>
    have hname := congrArg ParameterIndex.reaction he
    rw [Point.coordinate_reaction] at hi hj
    simp only [indexAt, hi, hj, Option.bind_some] at hname
    exact eq_of_same_name (hs.2 ha) hlt hlt' hname
  | species =>
    have hname := congrArg ParameterIndex.species he
    rw [Point.coordinate_species] at hi hj
    simp only [indexAt, hi, hj, Option.bind_some] at hname
    exact (isFirst_of_mem_points ht hs.1 hq hi).eq (isFirst_of_mem_points ht hs.1 hr hj) hname

/-- Where every index names one point, no name occurs twice. -/
theorem nodup_of_injOn (h : ∀ s, Set.InjOn (t.indexAt "") {q | q ∈ t.points s}) :
    t.species.Nodup ∧ (t.reactions.map Reaction.text).Nodup := by
  constructor
  · refine List.nodup_iff_getElem?_ne_getElem?.2 fun i j hij hj he => ?_
    have hmem : ∀ k, k < t.species.length →
        (⟨none, none, none, some k⟩ : Point) ∈ {q | q ∈ t.points .species} := by
      intro k hk
      simpa [points] using hk
    have hsame := h .species (hmem i (hij.trans hj)) (hmem j hj) (by simp [indexAt, he])
    cases hsame
    exact absurd hij (Nat.lt_irrefl _)
  · refine List.nodup_iff_getElem?_ne_getElem?.2 fun i j hij hj he => ?_
    rw [List.length_map] at hj
    rw [List.getElem?_map, List.getElem?_map] at he
    have hmem : ∀ k, k < t.reactions.length →
        (⟨none, none, some k, none⟩ : Point) ∈ {q | q ∈ t.points .reaction} := by
      intro k hk
      simpa [points] using hk
    have hsame := h .reaction (hmem i (hij.trans hj)) (hmem j hj) (by simp [indexAt, he])
    cases hsame
    exact absurd hij (Nat.lt_irrefl _)

section Points

variable {α β : Type} {l : List α} {index : α → Nat} {f : α → List β}

/-- Lists made from elements with indices of their own have no member in common if every member
tells the index it was made from. -/
theorem nodup_flatMap_of_key (key : β → Option Nat) (hl : (l.map index).Nodup)
    (hf : ∀ a ∈ l, (f a).Nodup)
    (hkey : ∀ a b, b ∈ f a → key b = some (index a)) : (l.flatMap f).Nodup := by
  refine List.nodup_flatMap.2 ⟨hf, (List.pairwise_map.1 hl).imp fun {a a'} hne => ?_⟩
  intro b hb hb'
  have hsame := (hkey a b hb).symm.trans (hkey a' b hb')
  exact hne (Option.some.inj hsame)

theorem nodup_index_zipIdx : (l.zipIdx.map Prod.snd).Nodup := by
  rw [List.zipIdx_map_snd]
  exact List.nodup_range'

theorem length_flatMap_zipIdx {f : α × Nat → List β} {g : α → Nat}
    (h : ∀ e, (f e).length = g e.1) : (l.zipIdx.flatMap f).length = (l.map g).sum := by
  calc (l.zipIdx.flatMap f).length = (l.zipIdx.map fun e => (f e).length).sum :=
        List.length_flatMap
    _ = (l.zipIdx.map (g ∘ Prod.fst)).sum := by rw [List.map_congr_left fun e _ => h e]; rfl
    _ = (l.map g).sum := by rw [← List.map_map, List.zipIdx_map_fst]

/-- A plant lists every point of a shape once. -/
theorem nodup_points (ht : t.Named) (s : Shape) : (t.points s).Nodup := by
  have hgroup {gs : List Group} (h : t.NamedGroups gs) : ∀ e ∈ gs.zipIdx, e.1.species.Nodup :=
    fun e he => h.distinct e.1 (List.fst_mem_of_mem_zipIdx he)
  have hreaction : ∀ e ∈ t.reactions.zipIdx, (t.participants e.1).Nodup :=
    fun e he => ht.participants e.1 (List.fst_mem_of_mem_zipIdx he)
  have hrange (n : Nat) : ((List.range n).map id).Nodup := by
    rw [List.map_id]
    exact List.nodup_range
  cases s with
  | scalar => exact List.nodup_singleton _
  | species => exact List.nodup_range.map fun _ _ h => by cases h; rfl
  | stream => exact List.nodup_range.map fun _ _ h => by cases h; rfl
  | reaction => exact List.nodup_range.map fun _ _ h => by cases h; rfl
  | phase k => exact List.nodup_range.map fun _ _ h => by cases h; rfl
  | streamSpecies =>
    refine nodup_flatMap_of_key Point.stream nodup_index_zipIdx (fun e he => ?_) (by simp)
    exact (hgroup ht.streams e he).map fun _ _ h => by cases h; rfl
  | reactionSpecies =>
    refine nodup_flatMap_of_key Point.reaction nodup_index_zipIdx (fun e he => ?_) (by simp)
    exact (hreaction e he).map fun _ _ h => by cases h; rfl
  | phaseSpecies k =>
    refine nodup_flatMap_of_key Point.phasePosition nodup_index_zipIdx (fun e he => ?_)
      (by simp [Point.phasePosition])
    exact (hgroup (ht.phases k) e he).map fun _ _ h => by cases h; rfl
  | streamReaction =>
    refine nodup_flatMap_of_key Point.stream (hrange _) (fun i _ => ?_) (by simp)
    exact List.nodup_range.map fun _ _ h => by cases h; rfl
  | phaseStream k =>
    refine nodup_flatMap_of_key Point.phasePosition (hrange _) (fun i _ => ?_)
      (by simp [Point.phasePosition])
    exact List.nodup_range.map fun _ _ h => by cases h; rfl
  | streamReactionSpecies =>
    refine nodup_flatMap_of_key Point.stream nodup_index_zipIdx (fun e he => ?_) ?_
    · refine nodup_flatMap_of_key Point.reaction nodup_index_zipIdx (fun r hr => ?_) ?_
      · exact ((hreaction r hr).filter _).map fun _ _ h => by cases h; rfl
      · simp only [List.mem_map]
        rintro r q ⟨_, -, rfl⟩
        rfl
    · simp only [List.mem_flatMap, List.mem_map]
      rintro e q ⟨_, -, _, -, rfl⟩
      rfl
  | phaseStreamSpecies k =>
    refine nodup_flatMap_of_key Point.phasePosition nodup_index_zipIdx (fun e he => ?_) ?_
    · refine nodup_flatMap_of_key Point.stream nodup_index_zipIdx (fun g _ => ?_) ?_
      · exact ((hgroup (ht.phases k) e he).filter _).map fun _ _ h => by cases h; rfl
      · simp only [List.mem_map]
        rintro g q ⟨_, -, rfl⟩
        rfl
    · simp only [List.mem_flatMap, List.mem_map]
      rintro e q ⟨_, -, _, -, rfl⟩
      rfl

end Points

/-- The number of scalars that a variable of a shape has in a plant. -/
def count (t : Topology) : Shape → Nat
  | .scalar => 1
  | .species => t.species.length
  | .stream => t.streams.length
  | .reaction => t.reactions.length
  | .streamSpecies => (t.streams.map fun g => g.species.length).sum
  | .reactionSpecies => (t.reactions.map fun r => (t.participants r).length).sum
  | .streamReaction => t.streams.length * t.reactions.length
  | .streamReactionSpecies =>
    (t.streams.map fun g =>
      (t.reactions.map fun r => (t.participants r).countP g.species.contains).sum).sum
  | .phase k => (t.phases k).length
  | .phaseSpecies k => ((t.phases k).map fun g => g.species.length).sum
  | .phaseStream k => (t.phases k).length * t.streams.length
  | .phaseStreamSpecies k =>
    ((t.phases k).map fun g =>
      (t.streams.map fun h => g.species.countP h.species.contains).sum).sum

theorem length_points (s : Shape) : (t.points s).length = t.count s := by
  cases s with
  | scalar => rfl
  | species => simp [points, count]
  | stream => simp [points, count]
  | reaction => simp [points, count]
  | phase k => simp [points, count]
  | streamReaction => simp [points, count, List.length_flatMap]
  | phaseStream k => simp [points, count, List.length_flatMap]
  | streamSpecies => exact length_flatMap_zipIdx fun e => List.length_map _
  | reactionSpecies => exact length_flatMap_zipIdx fun e => List.length_map _
  | phaseSpecies k => exact length_flatMap_zipIdx fun e => List.length_map _
  | streamReactionSpecies =>
    refine length_flatMap_zipIdx fun e => length_flatMap_zipIdx fun r => ?_
    rw [List.length_map, ← List.countP_eq_length_filter]
  | phaseStreamSpecies k =>
    refine length_flatMap_zipIdx fun e => length_flatMap_zipIdx fun g => ?_
    rw [List.length_map, ← List.countP_eq_length_filter]

end Topology

end Kinetics

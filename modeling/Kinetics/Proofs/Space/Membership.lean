import Kinetics.Proofs.Space.Naming

/-!
# Kinetics.Proofs.Space.Membership

Which combinations of positions are points. A point of a shape has a position in range on each of
the axes and none elsewhere; and where species come with streams, phases or reactions, the species
is one that all of these have to do with by its name, at the first position of the name
(`mem_points_iff`).
-/

namespace Kinetics

namespace Plant

def composition (gs : Dict String (List String)) (i : Nat) : List String :=
  (gs.entries[i]?.map Prod.snd).getD []

/-- The names of the species that a member of an axis has to do with: what a stream or a phase is
composed of, what takes part in a reaction. -/
def concerned (p : Plant) : Axis → Nat → List String
  | .stream, i => composition p.streams i
  | .phase .gas, i => composition p.gases i
  | .phase .solid, i => composition p.solids i
  | .reaction, i =>
    match p.reactions[i]?.map (Reaction.read p.species) with
    | some (.ok r) => r.participants.map Prod.fst
    | _ => []
  | .species, _ => p.species

/-- Where a point of a shape has a species besides other members, all of these have to do with it;
a species stands at the first position of its name. -/
def Carries (p : Plant) (s : Shape) (q : Point) : Prop :=
  .species ∈ s.axes → ∀ a ∈ s.axes, a ≠ .species → ∀ i j, q.coordinate a = some i →
    q.coordinate .species = some j → ∃ name ∈ p.concerned a i, p.species.idxOf? name = some j

end Plant

namespace Topology

variable {t : Topology} {s : Shape} {q : Point} {p : Plant} {f : Axis → Nat} {a : Axis} {i j : Nat}

/-- A position in range on each axis of the shape, and none on the others. -/
structure Ranges (t : Topology) (s : Shape) (q : Point) : Prop where
  on : ∀ a ∈ s.axes, ∃ i, q.coordinate a = some i ∧ i < t.extent a
  off : ∀ a, a ∉ s.axes → q.coordinate a = none

/-- The positions of the species that a member of an axis has to do with. -/
def held (t : Topology) : Axis → Nat → List Nat
  | .stream, i => (t.streams[i]?.map Group.species).getD []
  | .phase k, i => ((t.phases k)[i]?.map Group.species).getD []
  | .reaction, i => (t.reactions[i]?.map t.participants).getD []
  | .species, _ => List.range t.species.length

theorem mem_positions {species names : List String} :
    i ∈ positions species names ↔ ∃ name ∈ names, species.idxOf? name = some i := by
  simp only [positions, List.mem_filter, List.mem_range, List.any_eq_true, beq_iff_eq]
  refine and_iff_right_of_imp ?_
  rintro ⟨name, -, hi⟩
  exact (List.idxOf?_eq_some_iff.1 hi).1

theorem mem_held_groups {species : List String} (gs : Dict String (List String)) :
    j ∈ (((groups species gs)[i]?).map Group.species).getD [] ↔
      ∃ name ∈ Plant.composition gs i, species.idxOf? name = some j := by
  rw [← mem_positions, groups, List.getElem?_map, Option.map_map, Plant.composition]
  cases gs.entries[i]? with
  | none => simp [positions]
  | some e => rfl

theorem readReactions_getElem {species texts : List String} {rs : List Reaction}
    (h : readReactions species texts = .ok rs) (i : Nat) :
    texts[i]?.map (Reaction.read species) = rs[i]?.map .ok := by
  induction texts generalizing rs i with
  | nil =>
    cases h
    rfl
  | cons text texts ih =>
    simp only [readReactions] at h
    split at h
    · cases h
    · rename_i r hr
      split at h
      · cases h
      · rename_i rest hrest
        cases h
        cases i with
        | zero => simp [hr]
        | succ i => simpa using ih hrest i

/-- What a member holds is told by names. -/
theorem mem_held (h : ofPlant p = .ok t) (ha : a ≠ .species) :
    j ∈ t.held a i ↔ ∃ name ∈ p.concerned a i, p.species.idxOf? name = some j := by
  unfold ofPlant at h
  split at h
  · cases h
  · rename_i rs hrs
    cases h
    cases a with
    | species => exact absurd rfl ha
    | stream => exact mem_held_groups p.streams
    | phase k =>
      cases k with
      | gas => exact mem_held_groups p.gases
      | solid => exact mem_held_groups p.solids
    | reaction =>
      rw [held, Plant.concerned, readReactions_getElem hrs i]
      cases rs[i]? with
      | none => simp
      | some r => simp [participants]

theorem getElem?_of_extent {α : Type} {l : List α} (h : i < l.length) : ∃ x, l[i]? = some x :=
  ⟨_, List.getElem?_eq_getElem h⟩

/-- The members of an axis hold the species of the point. -/
def AllHold (t : Topology) (s : Shape) (f : Axis → Nat) : Prop :=
  .species ∈ s.axes → ∀ a ∈ s.axes, a ≠ .species → f .species ∈ t.held a (f a)

theorem point_mem_points (hf : ∀ a ∈ s.axes, f a < t.extent a) :
    s.point f ∈ t.points s ↔ t.AllHold s f := by
  cases s with
  | scalar => simp [AllHold, points, Shape.point, Shape.axes, Shape.phase?, Point.origin]
  | species =>
    have hi : f .species < t.species.length := hf _ (by decide)
    simpa [AllHold, points, Shape.point, Shape.axes, Shape.phase?] using hi
  | stream =>
    have hi : f .stream < t.streams.length := hf _ (by decide)
    simpa [AllHold, points, Shape.point, Shape.axes, Shape.phase?] using hi
  | reaction =>
    have hi : f .reaction < t.reactions.length := hf _ (by decide)
    simpa [AllHold, points, Shape.point, Shape.axes, Shape.phase?] using hi
  | phase k =>
    have hi : f (.phase k) < (t.phases k).length := hf _ (by simp [Shape.axes])
    simpa [AllHold, points, Shape.point, Shape.axes, Shape.phase?] using hi
  | streamReaction =>
    have hi : f .stream < t.streams.length := hf _ (by decide)
    have hj : f .reaction < t.reactions.length := hf _ (by decide)
    simp [AllHold, points, Shape.point, Shape.axes, Shape.phase?, hi, hj]
  | phaseStream k =>
    have hi : f (.phase k) < (t.phases k).length := hf _ (by simp [Shape.axes])
    have hj : f .stream < t.streams.length := hf _ (by simp [Shape.axes])
    simp [AllHold, points, Shape.point, Shape.axes, Shape.phase?, hi, hj]
  | streamSpecies =>
    obtain ⟨g, hg⟩ : ∃ g, t.streams[f .stream]? = some g := getElem?_of_extent (hf _ (by decide))
    simp [AllHold, points, Shape.point, Shape.axes, Shape.phase?, held,
      List.mem_zipIdx_iff_getElem?, hg]
  | reactionSpecies =>
    obtain ⟨r, hr⟩ : ∃ r, t.reactions[f .reaction]? = some r :=
      getElem?_of_extent (hf _ (by decide))
    simp [AllHold, points, Shape.point, Shape.axes, Shape.phase?, held,
      List.mem_zipIdx_iff_getElem?, hr]
  | phaseSpecies k =>
    obtain ⟨g, hg⟩ : ∃ g, (t.phases k)[f (.phase k)]? = some g :=
      getElem?_of_extent (hf _ (by simp [Shape.axes]))
    simp [AllHold, points, Shape.point, Shape.axes, Shape.phase?, held,
      List.mem_zipIdx_iff_getElem?, hg]
  | streamReactionSpecies =>
    obtain ⟨g, hg⟩ : ∃ g, t.streams[f .stream]? = some g := getElem?_of_extent (hf _ (by decide))
    obtain ⟨r, hr⟩ : ∃ r, t.reactions[f .reaction]? = some r :=
      getElem?_of_extent (hf _ (by decide))
    simp [AllHold, points, Shape.point, Shape.axes, Shape.phase?, held,
      List.mem_zipIdx_iff_getElem?, hg, hr, and_comm]
  | phaseStreamSpecies k =>
    obtain ⟨g, hg⟩ : ∃ g, (t.phases k)[f (.phase k)]? = some g :=
      getElem?_of_extent (hf _ (by simp [Shape.axes]))
    obtain ⟨h, hh⟩ : ∃ h, t.streams[f .stream]? = some h :=
      getElem?_of_extent (hf _ (by simp [Shape.axes]))
    simp [AllHold, points, Shape.point, Shape.axes, Shape.phase?, held,
      List.mem_zipIdx_iff_getElem?, hg, hh]

/-- The positions of a point give it back. -/
theorem Ranges.eq_point (h : t.Ranges s q) : q = s.point fun a => (q.coordinate a).getD 0 := by
  have hsome {a : Axis} (ha : a ∈ s.axes) : some ((q.coordinate a).getD 0) = q.coordinate a := by
    obtain ⟨i, hi, -⟩ := h.on a ha
    rw [hi, Option.getD_some]
  have hcoord (a : Axis) : (if s.axes.contains a then some ((q.coordinate a).getD 0) else none) =
      q.coordinate a := by
    by_cases ha : a ∈ s.axes
    · rw [if_pos (by simpa using ha), hsome ha]
    · rw [if_neg (by simpa using ha), h.off a ha]
  have hphase : (s.phase?.map fun k => (k, (q.coordinate (.phase k)).getD 0)) = q.phase := by
    cases hk : s.phase? with
    | some k =>
      obtain ⟨i, hi, -⟩ := h.on _ (Shape.phase?_eq_some.1 hk)
      rw [Option.map_some, hi, Option.getD_some, phase_of_coordinate hi]
    | none =>
      cases hq : q.phase with
      | none => rfl
      | some e =>
        obtain ⟨k, i⟩ := e
        have hoff := h.off (.phase k) fun ha => by simp [Shape.phase?_eq_some.2 ha] at hk
        simp [Point.coordinate, hq] at hoff
  obtain ⟨phase, stream, reaction, species⟩ := q
  rw [Shape.point, hcoord .stream, hcoord .reaction, hcoord .species, hphase]
  rfl

theorem ranges_point (hf : ∀ a ∈ s.axes, f a < t.extent a) : t.Ranges s (s.point f) := by
  refine ⟨fun a ha => ⟨f a, s.coordinate_point ha, hf a ha⟩, fun a ha => ?_⟩
  cases a with
  | phase k =>
    have hk : s.phase? ≠ some k := fun hk => ha (Shape.phase?_eq_some.1 hk)
    cases hs : s.phase? with
    | none => simp [Shape.point, hs, Point.coordinate]
    | some k' =>
      have hne : k' ≠ k := fun he => hk (by rw [hs, he])
      simp [Shape.point, hs, Point.coordinate, hne]
  | stream => simp [Shape.point, ha]
  | reaction => simp [Shape.point, ha]
  | species => simp [Shape.point, ha]

/-- The points of a shape: one position in range on each axis, of members that have to do with each
other. -/
theorem mem_points (h : ofPlant p = .ok t) : q ∈ t.points s ↔ t.Ranges s q ∧ p.Carries s q := by
  have hplaced := ofPlant_placed h
  constructor
  · intro hq
    obtain ⟨hform, hlt⟩ := points_form hplaced hq
    have hr : t.Ranges s q := hform ▸ ranges_point hlt
    refine ⟨hr, fun hs a ha hne i j hi hj => ?_⟩
    have hall := (point_mem_points hlt).1 (hform ▸ hq) hs a ha hne
    simp only [hi, hj, Option.getD_some] at hall
    exact (mem_held h hne).1 hall
  · rintro ⟨hr, hc⟩
    have hlt : ∀ a ∈ s.axes, (q.coordinate a).getD 0 < t.extent a := fun a ha => by
      obtain ⟨i, hi, hlt⟩ := hr.on a ha
      rwa [hi, Option.getD_some]
    rw [hr.eq_point]
    refine (point_mem_points hlt).2 fun hs a ha hne => ?_
    obtain ⟨i, hi, -⟩ := hr.on a ha
    obtain ⟨j, hj, -⟩ := hr.on .species hs
    simp only [hi, hj, Option.getD_some]
    exact (mem_held h hne).2 (hc hs a ha hne i j hi hj)

end Topology

end Kinetics
